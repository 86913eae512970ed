import Mathlib.Algebra.GroupWithZero.Nat
import Mathlib.Data.Fintype.Basic
import Mathlib.Data.List.FinRange
import Mathlib.Data.List.Perm.Basic
import PerrOS.Lib.System

/-!
# Thread stacks

`threadlib.c` allocates a stack for every thread and keeps it in a table of
pids until the thread is joined. The table's initialiser marks the first slot
free and no other, so the table holds one stack at a time.
-/

namespace PerrOS.Threadlib

open Function (update)
open Lib (System)

def PID_MEM_TABLE_SIZE : Nat := 64

instance : NeZero PID_MEM_TABLE_SIZE := ⟨by decide⟩

def PGSIZE : Nat := 4096

structure PidMemPair where
  isFree : Bool
  pid : Int
  memRegion : Nat

abbrev Slot := Fin PID_MEM_TABLE_SIZE

/-- The table of the library, and the stacks that `malloc` has returned and
`free` has not taken back. -/
structure Process where
  pidMemTable : Slot → PidMemPair
  allocated : List Nat

/-- What C makes of `{ { 1, -1, 0 } }`. -/
def Process.static : Process where
  pidMemTable i := if i = 0 then ⟨true, -1, 0⟩ else ⟨false, 0, 0⟩
  allocated := []

-- ---------------------------------------------------------------------------
-- The library
-- ---------------------------------------------------------------------------

def malloc (p : Process) (stackPage : Nat) : Process :=
  if stackPage = 0 then p else { p with allocated := stackPage :: p.allocated }

/-- Freeing what is not allocated corrupts the heap. -/
def free (p : Process) (stackPtr : Nat) : Option Process :=
  if stackPtr ∈ p.allocated then some { p with allocated := p.allocated.erase stackPtr } else none

/-- The stack that `clone` gets: the first page boundary above the block's
start. -/
def alignedStack (stackPage : Nat) : Nat :=
  (stackPage + (PGSIZE - stackPage % PGSIZE)) % 2 ^ 32

/-- The loop of `thread_create`. -/
def record (p : Process) (pid : Int) (stackPage : Nat) : Process :=
  match (List.finRange PID_MEM_TABLE_SIZE).find? fun i => (p.pidMemTable i).isFree with
  | some i => { p with pidMemTable := update p.pidMemTable i ⟨false, pid, stackPage⟩ }
  | none => p

/-- `thread_create`, where `malloc` returns `stackPage` and `clone` a pid for
the stack it is given. -/
def threadCreate (p : Process) (stackPage : Nat) (clone : Nat → Int) : Process × Int :=
  let p := malloc p stackPage
  if stackPage = 0 then (p, -1)
  else
    let pid := clone (alignedStack stackPage)
    (if pid ≠ -1 then record p pid stackPage else p, pid)

/-- The loop of `thread_join`. -/
def release (p : Process) (joinRet : Int) : Option Process :=
  match (List.finRange PID_MEM_TABLE_SIZE).find? fun i =>
      !(p.pidMemTable i).isFree && (p.pidMemTable i).pid == joinRet with
  | some i => do
    let p ← free p (p.pidMemTable i).memRegion
    some { p with pidMemTable := update p.pidMemTable i ⟨true, -1, 0⟩ }
  | none => some p

/-- `thread_join`, where `join` returns `joinRet`. -/
def threadJoin (p : Process) (joinRet : Int) : Option (Process × Int) := do
  let p ← if joinRet ≠ -1 then release p joinRet else some p
  some (p, if 0 < joinRet then joinRet else -1)

-- ---------------------------------------------------------------------------
-- Calls
-- ---------------------------------------------------------------------------

/-- The process, and the threads created and not yet joined, each with the
block that `thread_create` allocated for it. -/
structure State where
  process : Process
  threads : List (Int × Nat)

inductive Call
  | threadCreate (stackPage : Nat) (clone : Nat → Int)
  | threadJoin (pid : Int) (join : Int → Int)

def next (s : State) : Call → Option State
  | .threadCreate stackPage clone =>
    let (p, pid) := threadCreate s.process stackPage clone
    some ⟨p, if pid = -1 then s.threads else (pid, stackPage) :: s.threads⟩
  | .threadJoin pid join => do
    let (p, joinRet) ← threadJoin s.process (join pid)
    some ⟨p, if joinRet = -1 then s.threads else s.threads.eraseP fun q => q.1 = joinRet⟩

/-- A block of two pages has no byte in common with what is allocated,
`clone` makes a pid that no thread has, and `join` returns the pid of a thread,
of the one asked for if not any. -/
def Specified (s : State) : Call → Prop
  | .threadCreate stackPage clone =>
    s.threads.length < PID_MEM_TABLE_SIZE ∧
    (∀ b ∈ s.process.allocated, stackPage + 2 * PGSIZE ≤ b ∨ b + 2 * PGSIZE ≤ stackPage) ∧
    (clone (alignedStack stackPage) = -1 ∨ 0 < clone (alignedStack stackPage) ∧
      clone (alignedStack stackPage) ∉ s.threads.map Prod.fst)
  | .threadJoin pid join =>
    join pid = -1 ∨ join pid ∈ s.threads.map Prod.fst ∧ (pid = -1 ∨ join pid = pid)

instance (s : State) : (l : Call) → Decidable (Specified s l)
  | .threadCreate _ _ => inferInstanceAs (Decidable (_ ∧ _ ∧ _))
  | .threadJoin _ _ => inferInstanceAs (Decidable (_ ∨ _))

def system : System State Call :=
  (System.ofNext (fun s => s = ⟨.static, []⟩) next).restrict Specified

/-- The stacks that are not freed are those of the threads not yet joined. -/
def NoLeak (s : State) : Prop := s.process.allocated.Perm (s.threads.map Prod.snd)

instance (s : State) : Decidable (NoLeak s) := inferInstanceAs (Decidable (List.Perm _ _))

/-- A failing `thread_create` allocates nothing; a `thread_join` that returns a
pid frees the block of that thread, and no other. -/
def Exact (s t : State) : Call → Prop
  | .threadCreate stackPage clone =>
    (threadCreate s.process stackPage clone).2 = -1 → t.process.allocated = s.process.allocated
  | .threadJoin pid join => join pid ≠ -1 →
    ∃ b, (join pid, b) ∈ s.threads ∧ s.process.allocated.Perm (b :: t.process.allocated)

/-- A pid is in the table. -/
def Recorded (p : Process) (pid : Int) : Prop :=
  ∃ i, (p.pidMemTable i).isFree = false ∧ (p.pidMemTable i).pid = pid

/-- `clone` does not fail once there is a stack, and the thread that is joined
is in the table. -/
def Kept (s : State) : Call → Prop
  | .threadCreate stackPage clone => stackPage = 0 ∨ clone (alignedStack stackPage) ≠ -1
  | .threadJoin pid join => join pid = -1 ∨ Recorded s.process (join pid)

-- ---------------------------------------------------------------------------
-- The invariant
-- ---------------------------------------------------------------------------

/-- What holds as long as nothing is lost. -/
structure Inv (s : State) : Prop where
  noLeak : NoLeak s
  pids : (s.threads.map Prod.fst).Nodup
  pos : ∀ q ∈ s.threads, 0 < q.1
  others : ∀ i, i ≠ 0 → s.process.pidMemTable i = ⟨false, 0, 0⟩
  first : (s.process.pidMemTable 0).isFree = false →
    ((s.process.pidMemTable 0).pid, (s.process.pidMemTable 0).memRegion) ∈ s.threads

section
variable {s t : State} {p p' : Process} {pid r : Int} {stackPage b : Nat} {clone : Nat → Int}
  {l : Call}

theorem find_first {f : Slot → Bool} (h : ∀ i, i ≠ 0 → f i = false) :
    (List.finRange PID_MEM_TABLE_SIZE).find? f = if f 0 then some 0 else none := by
  split_ifs with h0
  · cases hf : (List.finRange PID_MEM_TABLE_SIZE).find? f with
    | none => exact absurd h0 (by simpa using List.find?_eq_none.mp hf 0 (List.mem_finRange 0))
    | some i =>
      by_contra hi
      have hne : i ≠ 0 := fun he => hi (by rw [he])
      have := List.find?_some hf
      simp [h i hne] at this
  · refine List.find?_eq_none.mpr fun i _ => ?_
    by_cases hi : i = 0
    · rwa [hi]
    · simp [h i hi]

/-- A new thread gets the first slot, if that is free. -/
theorem record_eq (h : ∀ i, i ≠ 0 → p.pidMemTable i = ⟨false, 0, 0⟩) :
    record p pid stackPage =
      if (p.pidMemTable 0).isFree then
        { p with pidMemTable := update p.pidMemTable 0 ⟨false, pid, stackPage⟩ }
      else p := by
  rw [record, find_first fun i hi => by rw [h i hi]]
  split_ifs <;> rfl

/-- Only the first slot can hold a pid. -/
theorem recorded_iff (h : ∀ i, i ≠ 0 → p.pidMemTable i = ⟨false, 0, 0⟩) (hr : 0 < r) :
    Recorded p r ↔ (p.pidMemTable 0).isFree = false ∧ (p.pidMemTable 0).pid = r := by
  constructor
  · rintro ⟨i, hi, hpid⟩
    by_cases hi0 : i = 0
    · exact hi0 ▸ ⟨hi, hpid⟩
    · rw [h i hi0] at hpid
      exact absurd hpid (Int.ne_of_lt hr)
  · intro h0
    exact ⟨0, h0⟩

theorem release_of_recorded (h : ∀ i, i ≠ 0 → p.pidMemTable i = ⟨false, 0, 0⟩) (hr : 0 < r)
    (h0 : (p.pidMemTable 0).isFree = false ∧ (p.pidMemTable 0).pid = r) :
    release p r = (free p (p.pidMemTable 0).memRegion).map fun p =>
      { p with pidMemTable := update p.pidMemTable 0 ⟨true, -1, 0⟩ } := by
  rw [release, find_first fun i hi => by rw [h i hi]; simp [Int.ne_of_lt hr],
    if_pos (by simp [h0.1, h0.2])]
  simp only [Option.bind_eq_bind]
  cases free p (p.pidMemTable 0).memRegion <;> rfl

theorem release_of_not_recorded (h : ¬Recorded p r) : release p r = some p := by
  have hnone : (List.finRange PID_MEM_TABLE_SIZE).find? (fun i =>
      !(p.pidMemTable i).isFree && (p.pidMemTable i).pid == r) = none := by
    refine List.find?_eq_none.mpr fun i _ hi => h ⟨i, ?_⟩
    simpa using hi
  rw [release, hnone]

theorem record_allocated : (record p pid stackPage).allocated = p.allocated := by
  unfold record
  split <;> rfl

theorem Inv.record (h : Inv s) (hpos : 0 < pid) (hnew : pid ∉ s.threads.map Prod.fst)
    (hp : p = { s.process with allocated := stackPage :: s.process.allocated }) :
    Inv ⟨Threadlib.record p pid stackPage, (pid, stackPage) :: s.threads⟩ := by
  have hothers : ∀ i, i ≠ 0 → p.pidMemTable i = ⟨false, 0, 0⟩ := hp ▸ h.others
  have htable : p.pidMemTable = s.process.pidMemTable := by rw [hp]
  refine ⟨?_, List.nodup_cons.mpr ⟨hnew, h.pids⟩, fun q hq => ?_, ?_, ?_⟩
  · rw [NoLeak, record_allocated, hp]
    exact h.noLeak.cons stackPage
  · rcases List.mem_cons.mp hq with rfl | hq
    · exact hpos
    · exact h.pos q hq
  · intro i hi
    rw [record_eq hothers]
    split_ifs
    · exact (Function.update_of_ne hi _ _).trans (hothers i hi)
    · exact hothers i hi
  · rw [record_eq hothers]
    split_ifs with hfree
    · intro _
      simp only [Function.update_self]
      exact List.mem_cons_self
    · intro _
      rw [htable] at hfree ⊢
      exact List.mem_cons_of_mem _ (h.first (by simpa using hfree))

/-- A `thread_create` keeps the account unless `clone` fails. -/
theorem Inv.threadCreate (h : Inv s) (hs : Specified s (.threadCreate stackPage clone)) :
    ∃ t, next s (.threadCreate stackPage clone) = some t ∧
      (Kept s (.threadCreate stackPage clone) → Inv t) ∧
      ((NoLeak t ∧ Exact s t (.threadCreate stackPage clone)) ↔
        Kept s (.threadCreate stackPage clone)) := by
  obtain ⟨-, -, hclone⟩ := hs
  by_cases hnull : stackPage = 0
  · have hcreate : Threadlib.threadCreate s.process stackPage clone = (s.process, -1) := by
      rw [Threadlib.threadCreate, if_pos hnull, malloc, if_pos hnull]
    refine ⟨s, by simp only [next, hcreate, if_true], fun _ => h,
      iff_of_true ⟨h.noLeak, fun _ => rfl⟩ (.inl hnull)⟩
  obtain ⟨p, hp⟩ : ∃ p : Process,
      p = { s.process with allocated := stackPage :: s.process.allocated } := ⟨_, rfl⟩
  have hmalloc : malloc s.process stackPage = p := by rw [malloc, if_neg hnull, hp]
  by_cases hfail : clone (alignedStack stackPage) = -1
  · -- the block stays allocated and no thread has it
    have hcreate : Threadlib.threadCreate s.process stackPage clone = (p, -1) := by
      simp only [Threadlib.threadCreate, if_neg hnull, hmalloc, hfail, ne_eq, not_true_eq_false, if_false]
    have hkept : ¬Kept s (.threadCreate stackPage clone) := by simp [Kept, hnull, hfail]
    refine ⟨⟨p, s.threads⟩, by simp only [next, hcreate, if_true], fun hk => absurd hk hkept,
      iff_of_false (fun hl => ?_) hkept⟩
    have hlen := hl.1.length_eq
    have hlen' := h.noLeak.length_eq
    simp only [hp, List.length_cons, List.length_map] at hlen hlen'
    omega
  · obtain ⟨hpos, hnew⟩ := hclone.resolve_left hfail
    have hcreate : Threadlib.threadCreate s.process stackPage clone =
        (Threadlib.record p (clone (alignedStack stackPage)) stackPage,
          clone (alignedStack stackPage)) := by
      simp only [Threadlib.threadCreate, if_neg hnull, hmalloc, ne_eq, hfail, not_false_eq_true, if_true]
    have hinv := h.record hpos hnew hp
    refine ⟨_, by simp only [next, hcreate, if_neg hfail], fun _ => hinv,
      iff_of_true ⟨hinv.noLeak, fun hr => ?_⟩ (.inr hfail)⟩
    rw [hcreate] at hr
    exact absurd hr hfail

/-- Joining takes a thread out of the list. -/
theorem split_of_mem (hr : r ∈ s.threads.map Prod.fst) :
    ∃ b A B, s.threads = A ++ (r, b) :: B ∧
      (s.threads.eraseP fun q => decide (q.1 = r)) = A ++ B := by
  obtain ⟨q, hq, rfl⟩ := List.mem_map.mp hr
  obtain ⟨q', A, B, -, hq', hsplit, herase⟩ := List.exists_of_eraseP
    (p := fun q' : Int × Nat => decide (q'.1 = q.1)) hq (decide_eq_true rfl)
  refine ⟨q'.2, A, B, ?_, herase⟩
  rw [hsplit, ← of_decide_eq_true hq']

/-- The thread in the first slot is given up with its block. -/
theorem Inv.release (h : Inv s) (hr : 0 < r) (hsplit : s.threads = A ++ (r, b) :: B)
    (hrec : Recorded s.process r) :
    ∃ p, Threadlib.release s.process r = some p ∧ Inv ⟨p, A ++ B⟩ ∧
      s.process.allocated.Perm (b :: p.allocated) := by
  have h0 := (recorded_iff h.others hr).mp hrec
  have hmem : (r, b) ∈ s.threads := by simp [hsplit]
  have hregion : (s.process.pidMemTable 0).memRegion = b := by
    have hsame := List.inj_on_of_nodup_map h.pids (h.first h0.1) hmem h0.2
    exact congrArg Prod.snd hsame
  have hblocks : s.process.allocated.Perm (b :: (A ++ B).map Prod.snd) := by
    have hperm := h.noLeak
    rw [NoLeak, hsplit, List.map_append, List.map_cons] at hperm
    rw [List.map_append]
    exact hperm.trans List.perm_middle
  have hb : b ∈ s.process.allocated := hblocks.mem_iff.mpr List.mem_cons_self
  have hthreads : (A ++ B).Sublist s.threads :=
    hsplit ▸ (List.Sublist.refl A).append (List.sublist_cons_self _ _)
  refine ⟨_, by rw [release_of_recorded h.others hr h0, hregion, free, if_pos hb, Option.map_some],
    ⟨?_, h.pids.sublist (hthreads.map _), fun q hq => h.pos q (hthreads.subset hq), ?_, ?_⟩,
    List.perm_cons_erase hb⟩
  · have herase := hblocks.erase b
    rwa [List.erase_cons_head] at herase
  · intro i hi
    exact (Function.update_of_ne hi _ _).trans (h.others i hi)
  · simp only [Function.update_self]
    intro hfree
    cases hfree

/-- A `thread_join` keeps the account exactly if the thread is in the table. -/
theorem Inv.threadJoin (h : Inv s) (hs : Specified s (.threadJoin pid join)) :
    ∃ t, next s (.threadJoin pid join) = some t ∧ (Kept s (.threadJoin pid join) → Inv t) ∧
      ((NoLeak t ∧ Exact s t (.threadJoin pid join)) ↔ Kept s (.threadJoin pid join)) := by
  rcases hs with hfail | ⟨hmem, -⟩
  · have hjoin : Threadlib.threadJoin s.process (join pid) = some (s.process, -1) := by
      rw [hfail]
      rfl
    exact ⟨s, by simp only [next, hjoin, Option.bind_eq_bind, Option.bind_some, if_true],
      fun _ => h, iff_of_true ⟨h.noLeak, fun hn => absurd hfail hn⟩ (.inl hfail)⟩
  obtain ⟨b, A, B, hAB, herase⟩ := split_of_mem hmem
  have hpos : 0 < join pid := h.pos (join pid, b) (by simp [hAB])
  have hne : join pid ≠ -1 := by omega
  have hnext : ∀ p, Threadlib.release s.process (join pid) = some p →
      next s (.threadJoin pid join) = some ⟨p, A ++ B⟩ := fun p hp => by
    simp only [next, Threadlib.threadJoin, if_pos hne, hp, Option.bind_eq_bind, Option.bind_some,
      if_pos hpos, if_neg hne, herase]
  by_cases hrec : Recorded s.process (join pid)
  · obtain ⟨p, hp, hinv, hblock⟩ := h.release hpos hAB hrec
    exact ⟨_, hnext p hp, fun _ => hinv,
      iff_of_true ⟨hinv.noLeak, fun _ => ⟨b, by simp [hAB], hblock⟩⟩ (.inr hrec)⟩
  · -- the table has no such pid, so nothing is freed
    have hkept : ¬Kept s (.threadJoin pid join) := not_or.mpr ⟨hne, hrec⟩
    refine ⟨_, hnext _ (release_of_not_recorded hrec), fun hk => absurd hk hkept,
      iff_of_false (fun hl => ?_) hkept⟩
    have hlen := hl.1.length_eq
    have hlen' := h.noLeak.length_eq
    simp only [hAB, List.length_map, List.length_append, List.length_cons] at hlen hlen'
    omega

-- ---------------------------------------------------------------------------
-- Every run
-- ---------------------------------------------------------------------------

theorem Inv.next (h : Inv s) (hs : Specified s l) :
    ∃ t, Threadlib.next s l = some t ∧ (Kept s l → Inv t) ∧
      ((NoLeak t ∧ Exact s t l) ↔ Kept s l) := by
  cases l with
  | threadCreate stackPage clone => exact h.threadCreate hs
  | threadJoin pid join => exact h.threadJoin hs

theorem reachable_inv (h : (system.restrict Kept).Reachable s) : Inv s := by
  refine h.invariant (fun s hs => ?_) ?_
  · rw [show s = ⟨.static, []⟩ from hs]
    exact ⟨.nil, .nil, by simp, fun i hi => if_neg hi, nofun⟩
  · rintro s l t - hinv ⟨⟨hs, hspec⟩, hkept⟩
    obtain ⟨t', ht, hinv', -⟩ := hinv.next hspec
    cases ht.symm.trans hs
    exact hinv' hkept

/-- As long as `clone` does not fail once there is a stack, and the threads
that are joined are in the table, the stacks not freed are those of the threads
not yet joined; a call that breaks either condition breaks the account. -/
theorem no_stack_leaks (h : (system.restrict Kept).Reachable s) :
    NoLeak s ∧ ∀ l, Specified s l →
      ∃ t, next s l = some t ∧ ((NoLeak t ∧ Exact s t l) ↔ Kept s l) := by
  have hinv := reachable_inv h
  refine ⟨hinv.noLeak, fun l hs => ?_⟩
  obtain ⟨t, ht, -, hiff⟩ := hinv.next hs
  exact ⟨t, ht, hiff⟩

/-- One thread is created and joined. -/
theorem no_stack_leaks_one : ∃ s t, s.threads = [(4, 4096)] ∧ NoLeak s ∧
    next s (.threadJoin (-1) fun _ => 4) = some t ∧ NoLeak t := by
  obtain ⟨s, hs, hthreads, hfirst⟩ : ∃ s, next ⟨.static, []⟩ (.threadCreate 4096 fun _ => 4) = some s ∧
      s.threads = [(4, 4096)] ∧ ((s.process.pidMemTable 0).isFree = false ∧
        (s.process.pidMemTable 0).pid = 4) := ⟨_, rfl, by decide +kernel, by decide +kernel⟩
  have hreach : (system.restrict Kept).Reachable s :=
    (System.Reachable.init rfl).step ⟨⟨hs, by decide⟩, .inr (by decide)⟩
  obtain ⟨hleak, hcalls⟩ := no_stack_leaks hreach
  obtain ⟨t, ht, hiff⟩ := hcalls (.threadJoin (-1) fun _ => 4)
    (.inr ⟨by simp [hthreads], .inl rfl⟩)
  exact ⟨s, t, hthreads, hleak, ht, (hiff.mpr (.inr ⟨0, hfirst⟩)).1⟩

/-- Two threads are created, and the second one is joined. -/
theorem second_stack_leaks : ¬ ∀ s, system.Reachable s → NoLeak s := by
  intro h
  have hexec : (System.exec (fun s l => if Specified s l then next s l else none) ⟨.static, []⟩
      [.threadCreate 4096 fun _ => 4, .threadCreate 16384 fun _ => 5,
        .threadJoin (-1) fun _ => 5]).any (fun t => !decide (NoLeak t)) = true := by decide +kernel
  obtain ⟨t, ht, hleak⟩ := (Option.any_eq_true _ _).mp hexec
  have hreach : system.Reachable t := ⟨_, System.run_exec_restrict rfl ht⟩
  simp [h t hreach] at hleak

end

end PerrOS.Threadlib
