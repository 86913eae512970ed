import PerrOS.Ptable.Calls

/-!
# What a step does to the table

Every step of the kernel is one of the ways of `Move`. The invariants below
read a step through `next_move` and never unfold an operation of `Calls`.
-/

namespace PerrOS.Ptable

open Function (update)
open Xv6 (ProcState Slot slots mem_slots)

variable {s t u : State} {p np k : Slot}

/-- The states of a process that has not exited. -/
def live (state : ProcState) : Bool :=
  state = .sleeping || state = .runnable || state = .running

@[simp] theorem live_sleeping : live .sleeping = true := rfl
@[simp] theorem live_runnable : live .runnable = true := rfl
@[simp] theorem live_running : live .running = true := rfl
@[simp] theorem live_unused : live .unused = false := rfl
@[simp] theorem live_embryo : live .embryo = false := rfl
@[simp] theorem live_zombie : live .zombie = false := rfl

theorem live_of_running {state : ProcState} (h : state = .running) : live state = true := by
  rw [h]
  rfl

-- ---------------------------------------------------------------------------
-- Reading a state that was written
-- ---------------------------------------------------------------------------

namespace State

variable (s : State) (p k : Slot)

@[simp] theorem set_proc (e : Proc) : (s.set p e).proc k = if k = p then e else s.proc k :=
  Function.update_apply s.proc p e k

@[simp] theorem set_pc (e : Proc) : (s.set p e).pc = s.pc := rfl
@[simp] theorem set_used (e : Proc) : (s.set p e).used = s.used := rfl
@[simp] theorem set_nextpid (e : Proc) : (s.set p e).nextpid = s.nextpid := rfl
@[simp] theorem set_log (e : Proc) : (s.set p e).log = s.log := rfl

@[simp] theorem setPc_pc (c : Pc) : (s.setPc p c).pc k = if k = p then c else s.pc k :=
  Function.update_apply s.pc p c k

@[simp] theorem setPc_proc (c : Pc) : (s.setPc p c).proc = s.proc := rfl
@[simp] theorem setPc_used (c : Pc) : (s.setPc p c).used = s.used := rfl
@[simp] theorem setPc_nextpid (c : Pc) : (s.setPc p c).nextpid = s.nextpid := rfl
@[simp] theorem setPc_log (c : Pc) : (s.setPc p c).log = s.log := rfl

@[simp] theorem emit_proc (e : Event) : (s.emit e).proc = s.proc := rfl
@[simp] theorem emit_pc (e : Event) : (s.emit e).pc = s.pc := rfl
@[simp] theorem emit_used (e : Event) : (s.emit e).used = s.used := rfl
@[simp] theorem emit_nextpid (e : Event) : (s.emit e).nextpid = s.nextpid := rfl
@[simp] theorem emit_log (e : Event) : (s.emit e).log = s.log ++ [e] := rfl

@[simp] theorem take_proc (pg : Page) : (s.take pg).proc = s.proc := rfl
@[simp] theorem take_pc (pg : Page) : (s.take pg).pc = s.pc := rfl
@[simp] theorem take_used (pg : Page) : (s.take pg).used = update s.used pg true := rfl
@[simp] theorem take_nextpid (pg : Page) : (s.take pg).nextpid = s.nextpid := rfl
@[simp] theorem take_log (pg : Page) : (s.take pg).log = s.log := rfl

@[simp] theorem kfree_proc (pg : Page) : (s.kfree pg).proc = s.proc := rfl
@[simp] theorem kfree_pc (pg : Page) : (s.kfree pg).pc = s.pc := rfl
@[simp] theorem kfree_used (pg : Page) : (s.kfree pg).used = update s.used pg false := rfl
@[simp] theorem kfree_nextpid (pg : Page) : (s.kfree pg).nextpid = s.nextpid := rfl
@[simp] theorem kfree_log (pg : Page) : (s.kfree pg).log = s.log := rfl

@[simp] theorem freevm_proc (pg : Page) : (s.freevm k pg).proc = s.proc := rfl
@[simp] theorem freevm_pc (pg : Page) : (s.freevm k pg).pc = s.pc := rfl
@[simp] theorem freevm_used (pg : Page) : (s.freevm k pg).used = update s.used pg false := rfl
@[simp] theorem freevm_nextpid (pg : Page) : (s.freevm k pg).nextpid = s.nextpid := rfl
@[simp] theorem freevm_log (pg : Page) : (s.freevm k pg).log = s.log ++ [.freevm k pg] := rfl

end State

/-- The events of a `reap`. -/
def reapEvents (s : State) (call : Reaper) (k : Slot) : List Event :=
  let e := s.proc k
  .reaped call e.pid e.kstack :: match call with
    | .wait => [.freevm k e.pgdir]
    | .join => []

@[simp] theorem reap_proc (call : Reaper) (j : Slot) :
    (reap s call k).proc j = if j = k then (s.proc k).reaped else s.proc j := by
  cases call <;> simp [reap]

@[simp] theorem reap_pc (call : Reaper) : (reap s call k).pc = s.pc := by
  cases call <;> rfl

@[simp] theorem reap_nextpid (call : Reaper) : (reap s call k).nextpid = s.nextpid := by
  cases call <;> rfl

@[simp] theorem reap_log (call : Reaper) :
    (reap s call k).log = s.log ++ reapEvents s call k := by
  cases call <;> simp [reap, reapEvents]

/-- `growproc` changes sizes only. -/
theorem resize_kept (s : State) (p k : Slot) (sz : BitVec 32) :
    (resize s p sz).proc k = { s.proc k with sz := ((resize s p sz).proc k).sz } := by
  simp only [resize]
  split <;> rfl

-- ---------------------------------------------------------------------------
-- Calm steps
-- ---------------------------------------------------------------------------

/-- A process that is in no call of `proc.c`. -/
def Pc.idle : Pc → Bool
  | .user | .blocked => true
  | _ => false

theorem Pc.idle_cases {c : Pc} (h : c.idle = true) : c = .user ∨ c = .blocked := by
  cases c with
  | user => exact .inl rfl
  | blocked => exact .inr rfl
  | _ => cases h

/-- From `s` to `t` processes are scheduled, woken, put to sleep elsewhere or
marked as killed, and nothing else happens. -/
structure Calm (s t : State) : Prop where
  kept : ∀ k, t.proc k = { s.proc k with
    state := (t.proc k).state, chan := (t.proc k).chan, killed := (t.proc k).killed }
  state : ∀ k, (t.proc k).state = (s.proc k).state ∨
    live (s.proc k).state = true ∧ live (t.proc k).state = true
  sleeping : ∀ k, (t.proc k).state = .sleeping → t.pc k = .blocked ∨
    (s.proc k).state = .sleeping ∧ t.pc k = s.pc k ∧ (t.proc k).chan = (s.proc k).chan
  pc : ∀ k, t.pc k = s.pc k ∨ (s.pc k).idle = true ∧ (t.pc k).idle = true
  nextpid : t.nextpid = s.nextpid
  used : t.used = s.used
  log : t.log = s.log

namespace Calm

theorem refl (s : State) : Calm s s where
  kept _ := rfl
  state _ := .inl rfl
  sleeping _ h := .inr ⟨h, rfl, rfl⟩
  pc _ := .inl rfl
  nextpid := rfl
  used := rfl
  log := rfl

theorem trans (h : Calm s t) (h' : Calm t u) : Calm s u where
  kept k := by
    rw [h'.kept k, h.kept k]
  state k := by
    rcases h'.state k with hu | ⟨ht, hu⟩
    · rw [hu]
      exact h.state k
    · rcases h.state k with hs | ⟨hs, -⟩
      · exact .inr ⟨hs ▸ ht, hu⟩
      · exact .inr ⟨hs, hu⟩
  sleeping k hk := by
    rcases h'.sleeping k hk with hu | ⟨ht, hpc, hchan⟩
    · exact .inl hu
    · rw [hpc, hchan]
      exact h.sleeping k ht
  pc k := by
    rcases h'.pc k with hu | ⟨ht, hu⟩
    · rw [hu]
      exact h.pc k
    · rcases h.pc k with hs | ⟨hs, -⟩
      · exact .inr ⟨hs ▸ ht, hu⟩
      · exact .inr ⟨hs, hu⟩
  nextpid := h'.nextpid.trans h.nextpid
  used := h'.used.trans h.used
  log := h'.log.trans h.log

section
variable (h : Calm s t)
include h

theorem sz (k : Slot) : (t.proc k).sz = (s.proc k).sz := by rw [h.kept k]
theorem pgdir (k : Slot) : (t.proc k).pgdir = (s.proc k).pgdir := by rw [h.kept k]
theorem kstack (k : Slot) : (t.proc k).kstack = (s.proc k).kstack := by rw [h.kept k]
theorem pid (k : Slot) : (t.proc k).pid = (s.proc k).pid := by rw [h.kept k]
theorem parent (k : Slot) : (t.proc k).parent = (s.proc k).parent := by rw [h.kept k]
theorem isThread (k : Slot) : (t.proc k).isThread = (s.proc k).isThread := by rw [h.kept k]

theorem live_eq (k : Slot) : live (t.proc k).state = live (s.proc k).state := by
  rcases h.state k with hk | ⟨hs, ht⟩
  · rw [hk]
  · rw [hs, ht]

theorem state_eq (hk : live (t.proc k).state = false) : (t.proc k).state = (s.proc k).state := by
  rcases h.state k with hk' | ⟨-, ht⟩
  · exact hk'
  · rw [hk] at ht
    cases ht

/-- A reading of the point that does not tell `user` from `blocked`. -/
theorem read {α : Type} {f : Pc → α} (hf : f .user = f .blocked) (k : Slot) :
    f (t.pc k) = f (s.pc k) := by
  rcases h.pc k with hk | ⟨hs, ht⟩
  · rw [hk]
  · rcases Pc.idle_cases hs with hs | hs <;> rcases Pc.idle_cases ht with ht | ht <;>
      simp only [hs, ht, hf]

theorem isJoinable {pid : Pid} : isJoinable t p pid k = isJoinable s p pid k := by
  simp only [Ptable.isJoinable, h.parent, h.isThread, h.pid]

theorem ownThread : ownThread t p k = ownThread s p k := by
  simp only [Ptable.ownThread, h.parent, h.isThread]

end

/-- One entry is written, its process staying alive. -/
theorem set {e : Proc} (hs : live (s.proc p).state = true) (he : live e.state = true)
    (hkept : e = { s.proc p with state := e.state, chan := e.chan, killed := e.killed })
    (hsleeping : e.state = .sleeping → (s.proc p).state = .sleeping ∧ e.chan = (s.proc p).chan) :
    Calm s (s.set p e) where
  kept k := by
    rcases eq_or_ne k p with rfl | hk
    · simpa using hkept
    · simp [hk]
  state k := by
    rcases eq_or_ne k p with rfl | hk
    · exact .inr ⟨hs, by simpa using he⟩
    · simp [hk]
  sleeping k := by
    rcases eq_or_ne k p with rfl | hk
    · intro h
      have := hsleeping (by simpa using h)
      exact .inr ⟨this.1, rfl, by simpa using this.2⟩
    · simpa [hk] using Or.inr
  pc _ := .inl rfl
  nextpid := rfl
  used := rfl
  log := rfl

end Calm

theorem wakeup1_calm (s : State) (chan : Chan) : Calm s (wakeup1 s chan) where
  kept _ := rfl
  state k := by
    simp only [wakeup1, Proc.woken]
    split
    · next h => exact .inr ⟨by rw [h.1]; rfl, rfl⟩
    · exact .inl rfl
  sleeping k := by
    simp only [wakeup1, Proc.woken]
    split
    · nofun
    · exact fun h => .inr ⟨h, trivial, trivial⟩
  pc _ := .inl rfl
  nextpid := rfl
  used := rfl
  log := rfl

/-- Nobody sleeps on a channel that was woken. -/
theorem wakeup1_chan {chan : Chan} (h : ((wakeup1 s chan).proc k).state = .sleeping) :
    ((wakeup1 s chan).proc k).chan ≠ chan := by
  simp only [wakeup1, Proc.woken] at h ⊢
  split at h
  · cases h
  · next hne => exact fun hc => hne ⟨h, hc⟩

theorem kill_calm (s : State) (pid : Pid) : Calm s (kill s pid) := by
  unfold kill
  split
  case h_2 => exact .refl s
  case h_1 k _ =>
    refine ⟨fun j => ?_, fun j => ?_, fun j => ?_, fun _ => .inl rfl, rfl, rfl, rfl⟩
    all_goals rcases eq_or_ne j k with rfl | hj
    · simp
    · simp [hj]
    · by_cases hs : (s.proc j).state = .sleeping <;> simp [hs]
    · simp [hj]
    · by_cases hs : (s.proc j).state = .sleeping <;> simp [hs]
    · simpa [hj] using Or.inr

theorem kill_running {pid : Pid} (hp : (s.proc p).state = .running) :
    ((kill s pid).proc p).state = .running := by
  unfold kill
  split
  case h_2 => exact hp
  case h_1 k _ =>
    rcases eq_or_ne p k with rfl | hk
    · simp [hp]
    · simp [hk, hp]

-- ---------------------------------------------------------------------------
-- The pass of `exit`
-- ---------------------------------------------------------------------------

/-- The pass of `exit` has gone by the slots in `ks`. -/
structure Swept (s : State) (p : Slot) (ks : List Slot) (t : State) : Prop where
  kept : ∀ k, t.proc k =
    { s.proc k with state := (t.proc k).state, parent := (t.proc k).parent }
  state : ∀ k, (t.proc k).state = (s.proc k).state ∨
    (s.proc k).state = .sleeping ∧ (t.proc k).state = .runnable
  parent : ∀ k, (t.proc k).parent =
    if k ∈ ks ∧ isChild s p k = true then some initproc else (s.proc k).parent
  own : ∀ k ∈ ks, ownThread s p k = false
  sibling : ∀ k ∈ ks, sibling s p k = true → isChild s p p = false →
    ∀ q, (t.proc q).state = .sleeping → (s.proc q).chan ≠ .proc k
  zombie : ∀ k ∈ ks, isChild s p k = true → (s.proc k).state = .zombie →
    ∀ q, (t.proc q).state = .sleeping → (s.proc q).chan ≠ .proc initproc
  pc : t.pc = s.pc
  nextpid : t.nextpid = s.nextpid
  used : t.used = s.used
  log : t.log = s.log

namespace Swept

section
variable {ks : List Slot} (h : Swept s p ks t)
include h

theorem pid (k : Slot) : (t.proc k).pid = (s.proc k).pid := by rw [h.kept k]
theorem isThread (k : Slot) : (t.proc k).isThread = (s.proc k).isThread := by rw [h.kept k]
theorem chan (k : Slot) : (t.proc k).chan = (s.proc k).chan := by rw [h.kept k]

theorem live_eq (k : Slot) : live (t.proc k).state = live (s.proc k).state := by
  rcases h.state k with hk | ⟨hs, ht⟩
  · rw [hk]
  · rw [hs, ht]
    rfl

theorem state_eq (hk : live (t.proc k).state = false) : (t.proc k).state = (s.proc k).state := by
  rcases h.state k with hk' | ⟨-, ht⟩
  · exact hk'
  · rw [ht] at hk
    cases hk

theorem sleeping (hk : (t.proc k).state = .sleeping) : (s.proc k).state = .sleeping := by
  rcases h.state k with hk' | ⟨-, ht⟩
  · rw [← hk', hk]
  · rw [ht] at hk
    cases hk

/-- Threads are not passed to init. -/
theorem parent_thread (hk : (s.proc k).isThread = true) :
    (t.proc k).parent = (s.proc k).parent := by
  rw [h.parent k, if_neg]
  simp [isChild, hk]

end

theorem nil (s : State) (p : Slot) : Swept s p [] s where
  kept _ := rfl
  state _ := .inl rfl
  parent _ := by simp
  own := by simp
  sibling := by simp
  zombie := by simp
  pc := rfl
  nextpid := rfl
  used := rfl
  log := rfl

/-- A slot, then the rest. -/
theorem cons {ks : List Slot} (h : Swept s p [k] t) (h' : Swept t p ks u) :
    Swept s p (k :: ks) u := by
  have hsame (j : Slot) (hj : j = k → isChild s p j = false) :
      (t.proc j).parent = (s.proc j).parent := by
    rw [h.parent j, if_neg]
    rintro ⟨hjk, hc⟩
    rw [hj (List.mem_singleton.mp hjk)] at hc
    cases hc
  have hchild (j : Slot) (hj : j = k → isChild s p j = false) :
      isChild t p j = isChild s p j := by
    simp only [isChild, hsame j hj, h.isThread j]
  have hown (j : Slot) : ownThread t p j = ownThread s p j := by
    simp only [ownThread, h.isThread j]
    cases hj : (s.proc j).isThread
    · rfl
    · rw [h.parent_thread hj]
  refine ⟨fun j => ?_, fun j => ?_, fun j => ?_, fun j hj => ?_, fun j hj hs hpp q hq => ?_,
    fun j hj hc hz q hq => ?_, h'.pc.trans h.pc, h'.nextpid.trans h.nextpid,
    h'.used.trans h.used, h'.log.trans h.log⟩
  · rw [h'.kept j, h.kept j]
  · rcases h'.state j with hu | ⟨ht, hu⟩
    · rw [hu]
      exact h.state j
    · rcases h.state j with hs | ⟨-, hs⟩
      · exact .inr ⟨hs ▸ ht, hu⟩
      · rw [ht] at hs
        cases hs
  · rw [h'.parent j]
    by_cases hjk : j = k ∧ isChild s p j = true
    · obtain ⟨rfl, hc⟩ := hjk
      have hj : (t.proc j).parent = some initproc := by
        rw [h.parent j, if_pos ⟨List.mem_singleton_self j, hc⟩]
      rw [hj, ite_self, if_pos ⟨List.mem_cons_self .., hc⟩]
    · have hj : j = k → isChild s p j = false := by simpa using hjk
      rw [hchild j hj, hsame j hj]
      refine if_congr ⟨fun hc => ⟨List.mem_cons_of_mem _ hc.1, hc.2⟩, fun hc => ⟨?_, hc.2⟩⟩ rfl rfl
      exact (List.mem_cons.mp hc.1).resolve_left fun e => hjk ⟨e, hc.2⟩
  · rcases List.mem_cons.mp hj with rfl | hj
    · exact h.own _ (List.mem_singleton_self _)
    · rw [← hown]
      exact h'.own j hj
  · rcases List.mem_cons.mp hj with rfl | hj
    · exact h.sibling _ (List.mem_singleton_self _) hs hpp q (h'.sleeping hq)
    · rw [← h.chan q]
      refine h'.sibling j hj ?_ ?_ q hq
      · have hth : (s.proc j).isThread = true := by
          simp only [Ptable.sibling, Bool.and_eq_true] at hs
          exact hs.1
        simpa only [Ptable.sibling, h.isThread j, h.parent_thread hth, hsame p fun _ => hpp] using hs
      · rw [hchild p fun _ => hpp, hpp]
  · rcases List.mem_cons.mp hj with rfl | hj
    · exact h.zombie _ (List.mem_singleton_self _) hc hz q (h'.sleeping hq)
    · rcases eq_or_ne j k with rfl | hjk
      · exact h.zombie _ (List.mem_singleton_self _) hc hz q (h'.sleeping hq)
      · rw [← h.chan q]
        refine h'.zombie j hj (by rw [hchild j fun e => absurd e hjk, hc]) ?_ q hq
        rw [h.state_eq, hz]
        rw [h.live_eq, hz]
        rfl

/-- A slot that the pass only wakes sleepers for. -/
theorem wake {chan : Chan} (hc : isChild s p k = false) (ho : ownThread s p k = false)
    (hs : Ptable.sibling s p k = true → chan = .proc k) : Swept s p [k] (wakeup1 s chan) where
  kept _ := rfl
  state j := by
    simp only [wakeup1, Proc.woken]
    split
    · next h => exact .inr ⟨h.1, rfl⟩
    · exact .inl rfl
  parent j := by
    rw [if_neg]
    · rfl
    · rintro ⟨hj, hcj⟩
      rw [List.mem_singleton.mp hj, hc] at hcj
      cases hcj
  own := by simpa using ho
  sibling j hj hsj _ q hq := by
    obtain rfl := List.mem_singleton.mp hj
    rw [← hs hsj]
    exact wakeup1_chan hq
  zombie j hj hcj := by
    rw [List.mem_singleton.mp hj, hc] at hcj
    cases hcj
  pc := rfl
  nextpid := rfl
  used := rfl
  log := rfl

theorem skip (hc : isChild s p k = false) (ho : ownThread s p k = false)
    (hs : Ptable.sibling s p k = false) : Swept s p [k] s where
  kept _ := rfl
  state _ := .inl rfl
  parent j := by
    rw [if_neg]
    rintro ⟨hj, hcj⟩
    rw [List.mem_singleton.mp hj, hc] at hcj
    cases hcj
  own := by simpa using ho
  sibling j hj hsj := by
    rw [List.mem_singleton.mp hj, hs] at hsj
    cases hsj
  zombie j hj hcj := by
    rw [List.mem_singleton.mp hj, hc] at hcj
    cases hcj
  pc := rfl
  nextpid := rfl
  used := rfl
  log := rfl

/-- A child is passed to init, which is woken if the child is a zombie. -/
theorem adopt (hc : isChild s p k = true)
    (ht : t = s.setParent k (some initproc) ∧ (s.proc k).state ≠ .zombie ∨
      t = wakeup1 (s.setParent k (some initproc)) (.proc initproc)) : Swept s p [k] t := by
  have hparent (j : Slot) : ((s.setParent k (some initproc)).proc j).parent =
      if j ∈ [k] ∧ isChild s p j = true then some initproc else (s.proc j).parent := by
    rcases eq_or_ne j k with rfl | hj
    · simp [State.setParent, hc]
    · simp [State.setParent, hj]
  have hkept (j : Slot) : (s.setParent k (some initproc)).proc j =
      { s.proc j with parent := ((s.setParent k (some initproc)).proc j).parent } := by
    rcases eq_or_ne j k with rfl | hj
    · simp [State.setParent]
    · simp [State.setParent, hj]
  have hthread : (s.proc k).isThread = false := by
    simp only [isChild, Bool.and_eq_true, Bool.not_eq_true'] at hc
    exact hc.2
  have hown : ∀ j ∈ [k], Ptable.ownThread s p j = false := by simp [Ptable.ownThread, hthread]
  have hsib : ∀ j ∈ [k], Ptable.sibling s p j = true → isChild s p p = false →
      ∀ q, (t.proc q).state = .sleeping → (s.proc q).chan ≠ .proc j := by
    simp [Ptable.sibling, hthread]
  rcases ht with ⟨rfl, hz⟩ | rfl
  · refine ⟨fun j => ?_, fun j => .inl ?_, hparent, hown, hsib, fun j hj _ hzj => ?_, rfl, rfl, rfl,
      rfl⟩
    · rw [hkept j]
    · rw [hkept j]
    · rw [List.mem_singleton.mp hj] at hzj
      exact absurd hzj hz
  · refine ⟨fun j => ?_, fun j => ?_, hparent, hown, hsib, fun j hj _ _ q hq => ?_, rfl, rfl, rfl,
      rfl⟩
    · simp only [wakeup1, Proc.woken]
      rw [hkept j]
    · simp only [wakeup1, Proc.woken]
      rw [hkept j]
      dsimp only
      split
      · next h => exact .inr ⟨h.1, rfl⟩
      · exact .inl rfl
    · have := wakeup1_chan hq
      simp only [wakeup1, Proc.woken] at this
      rwa [hkept q] at this

end Swept

/-- The pass goes by slots up to the first with a thread of its own, if there
is one. -/
theorem exitPass_swept (s : State) (p : Slot) (ks : List Slot) :
    (∃ t, exitPass s p ks = (t, none) ∧ Swept s p ks t) ∨
      ∃ t pre k post, exitPass s p ks = (t, some k) ∧ ks = pre ++ k :: post ∧
        Swept s p pre t ∧ ownThread t p k = true := by
  induction ks generalizing s with
  | nil => exact .inl ⟨s, rfl, .nil s p⟩
  | cons k ks ih =>
    have goOn (t : State) (ht : Swept s p [k] t) (hpass : exitPass s p (k :: ks) = exitPass t p ks) :
        (∃ u, exitPass s p (k :: ks) = (u, none) ∧ Swept s p (k :: ks) u) ∨
          ∃ u pre j post, exitPass s p (k :: ks) = (u, some j) ∧ k :: ks = pre ++ j :: post ∧
            Swept s p pre u ∧ ownThread u p j = true := by
      rw [hpass]
      rcases ih t with ⟨u, hu, hs⟩ | ⟨u, pre, j, post, hu, rfl, hs, hj⟩
      · exact .inl ⟨u, hu, ht.cons hs⟩
      · exact .inr ⟨u, k :: pre, j, post, hu, rfl, ht.cons hs, hj⟩
    by_cases hc : isChild s p k = true
    · by_cases hz : (s.proc k).state = .zombie
      · exact goOn _ (.adopt hc (.inr rfl)) (by rw [exitPass, if_pos hc, if_pos hz])
      · exact goOn _ (.adopt hc (.inl ⟨rfl, hz⟩)) (by rw [exitPass, if_pos hc, if_neg hz])
    by_cases ho : ownThread s p k = true
    · exact .inr ⟨s, [], k, ks, by rw [exitPass, if_neg hc, if_pos ho], rfl, .nil s p, ho⟩
    by_cases hs : sibling s p k = true
    · exact goOn _ (.wake (by simpa using hc) (by simpa using ho) fun _ => rfl)
        (by rw [exitPass, if_neg hc, if_neg ho, if_pos hs])
    · exact goOn s (.skip (by simpa using hc) (by simpa using ho) (by simpa using hs))
        (by rw [exitPass, if_neg hc, if_neg ho, if_neg hs])

/-- What the rest of the pass of `exit` comes to. -/
inductive Exits (s : State) (p : Slot) (ks : List Slot) : State → Prop
  | drop {t : State} {pre post : List Slot} {k : Slot} (h : Swept s p pre t)
      (hks : ks = pre ++ k :: post) (hk : ownThread t p k = true) :
      Exits s p ks (t.setPc p (.exitKill k))
  | done {t : State} (h : Swept s p ks t) :
      Exits s p ks
        (((wakeup1 t (chanOf (t.proc p).parent)).setState p .zombie).setPc p .dead)

theorem exitFrom_exits (s : State) (p : Slot) (ks : List Slot) :
    Exits s p ks (exitFrom s p ks) := by
  rcases exitPass_swept s p ks with ⟨t, hpass, ht⟩ | ⟨t, pre, k, post, hpass, hks, ht, hk⟩
  · simp only [exitFrom, hpass]
    exact .done ht
  · simp only [exitFrom, hpass]
    exact .drop ht hks hk

-- ---------------------------------------------------------------------------
-- The loops of `wait` and `proc_join`
-- ---------------------------------------------------------------------------

/-- What a process waits for: a child, a thread, or in `exit` the thread in
slot `i`. -/
inductive Wait
  | child
  | thread (pid : Pid)
  | dying (i : Slot) (pid : Pid)

namespace Wait

def call : Wait → Reaper
  | .child => .wait
  | .thread _ | .dying _ _ => .join

def looksAt (w : Wait) (s : State) (p : Slot) : Slot → Bool :=
  match w with
  | .child => isChild s p
  | .thread pid | .dying _ pid => isJoinable s p pid

def asleep : Wait → Pc
  | .child => .waiting
  | .thread pid => .joining pid
  | .dying i pid => .exitAsleep i pid

def done : Wait → Pc
  | .child | .thread _ => .user
  | .dying i _ => .exitResume i

/-- Where the call takes `ptable.lock`. -/
def start : Wait → Pc
  | .child | .thread _ => .user
  | .dying i pid => .exitJoining i pid

end Wait

/-- What a process that sleeps at `c` waits for. -/
def Pc.wait : Pc → Option Wait
  | .waiting => some .child
  | .joining pid => some (.thread pid)
  | .exitAsleep i pid => some (.dying i pid)
  | _ => none

/-- What one turn of the loop comes to. -/
inductive Turned (s : State) (p : Slot) (w : Wait) : State → Prop
  | reap {k : Slot} (hk : w.looksAt s p k = true) (hz : (s.proc k).state = .zombie) :
      Turned s p w ((reap s w.call k).setPc p w.done)
  | fail (hz : ∀ k, w.looksAt s p k = true → (s.proc k).state ≠ .zombie)
      (hf : (∀ k, w.looksAt s p k = false) ∨ (s.proc p).killed = true) :
      Turned s p w (s.setPc p w.done)
  | sleep (hz : ∀ k, w.looksAt s p k = true → (s.proc k).state ≠ .zombie) :
      Turned s p w ((sleep s p (.proc p)).setPc p w.asleep)

/-- What the outcome of a scan says about the table. -/
theorem scan_spec (s : State) (p : Slot) (looksAt : Slot → Bool) :
    match scan s p looksAt with
    | .reap k => looksAt k = true ∧ (s.proc k).state = .zombie
    | .fail => (∀ k, looksAt k = true → (s.proc k).state ≠ .zombie) ∧
        ((∀ k, looksAt k = false) ∨ (s.proc p).killed = true)
    | .sleep => (∀ k, looksAt k = true → (s.proc k).state ≠ .zombie) ∧
        (∃ k, looksAt k = true) ∧ (s.proc p).killed = false := by
  unfold scan
  cases hfind : slots.find? fun k => looksAt k && (s.proc k).state = .zombie with
  | some k => simpa using List.find?_some hfind
  | none =>
    have hz (k : Slot) (hk : looksAt k = true) : (s.proc k).state ≠ .zombie := by
      have := List.find?_eq_none.mp hfind k (mem_slots k)
      simpa [hk] using this
    by_cases hany : slots.any looksAt = true
    · obtain ⟨k, -, hk⟩ := List.any_eq_true.mp hany
      cases hkilled : (s.proc p).killed with
      | true => simpa using hz
      | false => simpa [hany] using ⟨hz, k, hk⟩
    · have hfree : ∀ k, looksAt k = false := by simpa using hany
      simp [hfree]

theorem turn_turned (s : State) (p : Slot) (w : Wait) :
    Turned s p w (turn s p w.call (w.looksAt s p) w.asleep w.done) := by
  have hspec := scan_spec s p (w.looksAt s p)
  unfold turn
  cases hscan : scan s p (w.looksAt s p) with
  | reap k =>
    rw [hscan] at hspec
    exact .reap hspec.1 hspec.2
  | fail =>
    rw [hscan] at hspec
    exact .fail hspec.1 hspec.2
  | sleep =>
    rw [hscan] at hspec
    exact .sleep hspec.1

-- ---------------------------------------------------------------------------
-- The ways of a step
-- ---------------------------------------------------------------------------

/-- The process whose code a step runs, where it is not a timer interrupt. -/
def Label.runs : Label → Slot → Prop
  | .dispatch q, p => q = p
  | .run q a, p => q = p ∧ a ≠ .yield
  | .wakeup _, _ => False

instance (l : Label) (p : Slot) : Decidable (l.runs p) :=
  match l with
  | .dispatch _ => inferInstanceAs (Decidable (_ = _))
  | .run _ _ => inferInstanceAs (Decidable (_ ∧ _))
  | .wakeup _ => inferInstanceAs (Decidable False)

/-- The points of `exit` with the lock dropped, where a process goes on to `c`
by itself. -/
inductive Advance (s : State) : Pc → Pc → Prop
  | kill (i : Slot) : Advance s (.exitKill i) (.exitKilling i (s.proc i).pid)
  | join (i : Slot) (pid : Pid) : Advance s (.exitKilling i pid) (.exitJoin i)
  | joining (i : Slot) : Advance s (.exitJoin i) (.exitJoining i (s.proc i).pid)

inductive Move (s : State) : Label → State → Prop
  | calm {l : Label} {t : State} (h : Calm s t) : Move s l t
  | create {p np : Slot} {a : Act} {c : Pc} (hp : (s.proc p).state = .running)
      (hpc : s.pc p = .user) (hnp : (s.proc np).state = .unused)
      (hc : c = .forking np .kstack ∧ (s.proc p).isThread = false ∨ c = .cloning np .kstack) :
      Move s (.run p a)
        (({ s.set np { s.proc np with state := .embryo, pid := s.nextpid } with
            nextpid := s.nextpid + 1 } : State).setPc p c)
  | fork {p np : Slot} {pg : Page} {next : ForkStage} {t : State}
      (hp : (s.proc p).state = .running) (hpc : s.pc p = .forking np next)
      (h : forkStep s p np pg next = some t) : Move s (.run p (.step pg)) t
  | clone {p np : Slot} {pg : Page} {next : CloneStage} {t : State}
      (hp : (s.proc p).state = .running) (hpc : s.pc p = .cloning np next)
      (h : cloneStep s p np pg next = some t) : Move s (.run p (.step pg)) t
  | turn {l : Label} {p : Slot} {w : Wait} {t u : State} (hl : l.runs p)
      (hp : (t.proc p).state = .running) (hpc : s.pc p = w.start ∨ s.pc p = w.asleep)
      (hw : s.pc p = .user → w = .child → (s.proc p).isThread = false)
      (hcalm : Calm s t) (hpcs : t.pc = s.pc)
      (hkilled : (t.proc p).killed = (s.proc p).killed) (h : Turned t p w u) : Move s l u
  | advance {l : Label} {p : Slot} {c : Pc} {t : State} (hp : (t.proc p).state = .running)
      (hpc : Advance s (s.pc p) c) (hcalm : Calm s t) (hpcs : t.pc = s.pc) :
      Move s l (t.setPc p c)
  | exit {p : Slot} {t : State} (hp : (s.proc p).state = .running) (hpc : s.pc p = .user)
      (hinit : p ≠ initproc) (h : Exits s p slots t) : Move s (.run p .exit) t
  | resume {l : Label} {p i : Slot} {t u : State} (hp : (t.proc p).state = .running)
      (hpc : s.pc p = .exitResume i) (hcalm : Calm s t) (hpcs : t.pc = s.pc)
      (h : Exits t p (slots.filter (i < ·)) u) : Move s l u
  | commit {p : Slot} {pg : Page} {sz : BitVec 32} (hp : (s.proc p).state = .running)
      (hpc : s.pc p = .user) (hpg : pg ≠ 0) (hfree : s.free pg = true) :
      Move s (.run p (.exec pg sz)) (commit s p pg sz)
  | resize {p : Slot} {n : BitVec 32} {mem : Bool} (hp : (s.proc p).state = .running)
      (hpc : s.pc p = .user) (h : growFails s p n mem = false) :
      Move s (.run p (.growproc n mem)) (resize s p (newSize (s.proc p).sz n mem))

theorem locked_eq_some {s t u : State} : s.locked t = some u ↔ s.wedged = false ∧ t = u := by
  unfold State.locked
  split <;> simp_all

theorem allocproc_cases (s : State) :
    allocproc s = none ∨ ∃ np, (s.proc np).state = .unused ∧
      allocproc s = some (np, { s.set np { s.proc np with state := .embryo, pid := s.nextpid } with
        nextpid := s.nextpid + 1 }) := by
  unfold allocproc
  cases hfind : slots.find? fun k => (s.proc k).state = .unused with
  | none => exact .inl rfl
  | some np => exact .inr ⟨np, by simpa using List.find?_some hfind, rfl⟩

theorem create_move {a : Act} {start : Slot → Pc} (hp : (s.proc p).state = .running)
    (hpc : s.pc p = .user)
    (hstart : (∀ np, start np = .forking np .kstack) ∧ (s.proc p).isThread = false ∨
      ∀ np, start np = .cloning np .kstack) :
    Move s (.run p a) (create s p start) := by
  unfold create
  rcases allocproc_cases s with h | ⟨np, hnp, h⟩
  · rw [h]
    exact .calm (.refl s)
  · rw [h]
    exact .create hp hpc hnp (hstart.imp (fun h => ⟨h.1 np, h.2⟩) fun h => h np)

/-- A process is switched to, or goes on at once, in a loop that waits. -/
theorem dispatch_calm (hp : (s.proc p).state = .runnable) :
    Calm s (s.setState p .running) :=
  .set (by rw [hp]; rfl) rfl rfl nofun

theorem tidy_calm (hp : (s.proc p).state = .running) : Calm s (tidy s p) :=
  .set (by rw [hp]; rfl) (by rw [hp]; rfl) rfl fun h => by
    rw [hp] at h
    cases h

theorem ite_eq_some {α : Type} {c : Prop} [Decidable c] {x y : Option α} {a : α} :
    (if c then x else y) = some a ↔ c ∧ x = some a ∨ ¬c ∧ y = some a := by
  split <;> simp_all

/-- A timer interrupt, which may come at any point. -/
theorem yield_move {l : Label} (hp : (s.proc p).state = .running)
    (h : s.locked (s.setState p .runnable) = some t) : Move s l t := by
  obtain ⟨-, rfl⟩ := locked_eq_some.mp h
  exact .calm (.set (live_of_running hp) rfl rfl nofun)

/-- The system calls. -/
theorem call_move {a : Act} (hp : (s.proc p).state = .running) (hpc : s.pc p = .user)
    (h : act s p a .user = some t) : Move s (.run p a) t := by
  have hlive := live_of_running hp
  cases a with
  | yield => exact yield_move hp h
  | step pg => cases h
  | sleep n =>
    obtain ⟨-, rfl⟩ := locked_eq_some.mp h
    refine .calm ⟨fun k => ?_, fun k => ?_, fun k => ?_, fun k => ?_, rfl, rfl, rfl⟩
    all_goals rcases eq_or_ne k p with rfl | hk
    · simp [sleep]
    · simp [sleep, hk]
    · exact .inr ⟨hlive, by simp [sleep]⟩
    · simp [sleep, hk]
    · simp
    · simpa [sleep, hk] using Or.inr
    · simp [hpc, Pc.idle]
    · simp [sleep, hk]
  | fork =>
    rcases ite_eq_some.mp h with ⟨hth, h⟩ | ⟨hth, h⟩
    · obtain rfl := Option.some.inj h
      exact .calm (.refl s)
    · obtain ⟨-, rfl⟩ := locked_eq_some.mp h
      exact create_move hp hpc (.inl ⟨fun _ => rfl, by simpa using hth⟩)
  | clone stack =>
    rcases ite_eq_some.mp h with ⟨-, h⟩ | ⟨-, h⟩
    · obtain rfl := Option.some.inj h
      exact .calm (.refl s)
    · obtain ⟨-, rfl⟩ := locked_eq_some.mp h
      exact create_move hp hpc (.inr fun _ => rfl)
  | exit =>
    rcases ite_eq_some.mp h with ⟨-, h⟩ | ⟨hinit, h⟩
    · cases h
    · obtain ⟨-, rfl⟩ := locked_eq_some.mp h
      exact .exit hp hpc hinit (exitFrom_exits s p slots)
  | kill pid =>
    obtain ⟨-, rfl⟩ := locked_eq_some.mp h
    exact .calm (kill_calm s pid)
  | wait =>
    rcases ite_eq_some.mp h with ⟨-, h⟩ | ⟨hth, h⟩
    · obtain rfl := Option.some.inj h
      exact .calm (.refl s)
    · obtain ⟨-, rfl⟩ := locked_eq_some.mp h
      exact .turn (w := .child) ⟨rfl, nofun⟩ hp (.inl hpc) (fun _ _ => by simpa using hth)
        (.refl s) rfl rfl (turn_turned s p .child)
  | join pid =>
    obtain ⟨-, rfl⟩ := locked_eq_some.mp h
    exact .turn (w := .thread pid) ⟨rfl, nofun⟩ hp (.inl hpc) nofun (.refl s) rfl rfl
      (turn_turned s p (.thread pid))
  | exec pg sz =>
    rcases ite_eq_some.mp h with ⟨-, h⟩ | ⟨hpg, h⟩
    · obtain rfl := Option.some.inj h
      exact .calm (.refl s)
    · rcases ite_eq_some.mp h with ⟨hfree, h⟩ | ⟨-, h⟩
      · obtain rfl := Option.some.inj h
        exact .commit hp hpc hpg hfree
      · cases h
  | growproc n mem =>
    obtain ⟨-, rfl⟩ := locked_eq_some.mp h
    unfold growproc
    split
    case isTrue => exact .calm ⟨fun _ => rfl, fun _ => .inl rfl, fun _ h => .inr ⟨h, rfl, rfl⟩,
      fun _ => .inl rfl, rfl, rfl, rfl⟩
    case isFalse hfails => exact .resize hp hpc (by simpa using hfails)

theorem act_move {a : Act} {c : Pc} (hp : (s.proc p).state = .running) (hpc : s.pc p = c)
    (h : act s p a c = some t) : Move s (.run p a) t := by
  cases a with
  | yield => exact yield_move hp h
  | step pg =>
    cases c with
    | forking np next => exact .fork hp hpc h
    | cloning np next => exact .clone hp hpc h
    | exitKill i =>
      obtain rfl := Option.some.inj h
      exact .advance hp (hpc ▸ .kill i) (.refl s) rfl
    | exitKilling i pid =>
      obtain ⟨-, rfl⟩ := locked_eq_some.mp h
      exact .advance (kill_running hp) (hpc ▸ .join i pid) (kill_calm s pid)
        (by unfold kill; split <;> rfl)
    | exitJoin i =>
      obtain rfl := Option.some.inj h
      exact .advance hp (hpc ▸ .joining i) (.refl s) rfl
    | exitJoining i pid =>
      obtain ⟨-, rfl⟩ := locked_eq_some.mp h
      exact .turn (w := .dying i pid) ⟨rfl, nofun⟩ hp (.inl hpc) (by simp [hpc]) (.refl s) rfl
        rfl (turn_turned s p (.dying i pid))
    | exitResume i =>
      obtain ⟨-, rfl⟩ := locked_eq_some.mp h
      unfold exitResume
      split
      case isTrue =>
        have hup : ((wakeup1 s (.proc i)).proc p).state = .running := by
          simp [wakeup1, Proc.woken, hp]
        exact .resume hup hpc (wakeup1_calm s _) rfl (exitFrom_exits _ p _)
      case isFalse => exact .resume hp hpc (.refl s) rfl (exitFrom_exits s p _)
    | _ => cases h
  | _ =>
    -- the other acts are calls from user code
    obtain rfl : c = .user := by
      cases c with
      | user => rfl
      | _ => cases h
    exact call_move hp hpc h

theorem next_move {l : Label} (h : next s l = some t) : Move s l t := by
  unfold next at h
  split at h
  case h_2 n =>
    obtain ⟨-, rfl⟩ := locked_eq_some.mp h
    exact .calm (wakeup1_calm s _)
  case h_3 p a =>
    split at h
    case isTrue hp => exact act_move hp rfl h
    case isFalse => cases h
  case h_1 p =>
    split at h
    case isFalse => cases h
    case isTrue hp =>
      obtain ⟨-, rfl⟩ := locked_eq_some.mp h
      have hrun : ((s.setState p .running).proc p).state = .running := by simp [State.setState]
      have hcalm := (dispatch_calm hp).trans (tidy_calm hrun)
      have htidy : ((tidy (s.setState p .running) p).proc p).state = .running := by
        simp [tidy, State.setState]
      have hkilled : ((tidy (s.setState p .running) p).proc p).killed = (s.proc p).killed := by
        simp [tidy, State.setState]
      have again (w : Wait) (hpc : s.pc p = w.asleep) :
          Move s (.dispatch p) (turn (tidy (s.setState p .running) p) p w.call
            (w.looksAt (tidy (s.setState p .running) p) p) w.asleep w.done) :=
        .turn rfl htidy (.inr hpc) (by rw [hpc]; cases w <;> nofun) hcalm rfl hkilled
          (turn_turned _ p w)
      unfold resume
      split
      case h_1 hpc =>
        refine .calm ⟨fun k => ?_, fun k => ?_, fun k => ?_, fun k => ?_, rfl, rfl, rfl⟩
        · exact hcalm.kept k
        · exact hcalm.state k
        · rcases eq_or_ne k p with rfl | hk
          · simp [tidy, State.setState]
          · simpa [hk] using hcalm.sleeping k
        · rcases eq_or_ne k p with rfl | hk
          · simp [hpc, Pc.idle]
          · simp [hk, tidy, State.setState]
      case h_2 hpc => exact again .child hpc
      case h_3 pid hpc => exact again (.thread pid) hpc
      case h_4 i pid hpc => exact again (.dying i pid) hpc
      case h_5 => exact .calm (dispatch_calm hp)

end PerrOS.Ptable
