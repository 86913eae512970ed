import PerrOS.Ptable.Calls
import PerrOS.Vm.Grow
import PerrOS.Vm.Replace
import PerrOS.Xv6.Spinlock

/-!
# growproc

`growproc` with the page directory it changes and the lock it takes. Its
failures return before `release(&ptable.lock)`, so it is atomic exactly where
it does not fail.
-/

namespace PerrOS.Ptable

open Function (update)
open Lib (Ensures wp)
open Vm (Word Kmem Kernel Image Frame Layout Pgdir Available Unmapped pageUp)
open Xv6 (Cpu Spinlock Slot acquire release pushcli popcli)

/-- The process table, the page directories by their page, `ptable.lock`, and
the CPU that runs the caller. -/
structure Machine where
  table : State
  dir : Page → Pgdir
  lock : Spinlock
  cpu : Cpu

/-- What changes `proc->sz` to the result. -/
def resizeDir (img : Image) (pgdir : Pgdir) (sz n : Word) : Kernel (Pgdir × Word) :=
  if 0 < n.toInt then Vm.allocuvm img pgdir sz (sz + n)
  else if n.toInt < 0 then Vm.deallocuvm img pgdir sz (sz + n)
  else return (pgdir, sz)

/-- `switchuvm(proc)`: the CPU's interrupt state. -/
def switchuvm (pgdir : Page) (cpu : Cpu) : Option Cpu :=
  if pgdir = 0 then none else popcli (pushcli cpu)

namespace Machine

/-- `growproc(n)` called by `p`. -/
def growproc (img : Image) (m : Machine) (p : Slot) (n : Word) : Kernel (Machine × Int) := do
  let (lock, cpu) ← (acquire m.lock m.cpu : Option (Spinlock × Cpu))
  let pgdir := (m.table.proc p).pgdir
  let r ← resizeDir img (m.dir pgdir) (m.table.proc p).sz n
  let m := { m with lock, cpu, dir := update m.dir pgdir r.1 }
  if n ≠ 0 ∧ r.2 = 0 then return (m, -1)
  else do
    let m := { m with table := resize m.table p r.2 }
    let (lock, cpu) ← (release m.lock m.cpu : Option (Spinlock × Cpu))
    let cpu ← (switchuvm pgdir cpu : Option Cpu)
    return ({ m with lock, cpu }, 0)

/-- No process's size and no user page has changed. -/
structure Unchanged (m m' : Machine) : Prop where
  sz : ∀ k, (m'.table.proc k).sz = (m.table.proc k).sz
  pages : ∀ pg va, va < Vm.USERTOP → (m'.dir pg).pte va = (m.dir pg).pte va

/-- `growproc` returns with the lock released, and without effect where it
fails. -/
def Atomic (img : Image) (m : Machine) (p : Slot) (n : Word) (s : Kmem) : Prop :=
  wp (m.growproc img p n) (fun r _ => r.1.lock.locked = false ∧ r.1.cpu.ncli = m.cpu.ncli ∧
    (r.2 = -1 → Unchanged m r.1)) s

/-- `p` may call `growproc`: its size and its page directory are in order, and
nobody holds the lock. -/
structure Ready (img : Image) (m : Machine) (p : Slot) (s : Kmem) : Prop where
  unlocked : m.lock.locked = false
  size : (m.table.proc p).sz ≤ Vm.USERTOP
  pgdir : (m.table.proc p).pgdir ≠ 0
  layout : ∃ S, Layout img (m.dir (m.table.proc p).pgdir) S
  frames : ∀ v ∈ s.freelist, Frame img v

end Machine

/-- The size can be changed by `n`: a growth stays below `USERTOP`, finds its
pages and maps none twice, and to shrink leaves some memory. -/
def Resizable (d : Pgdir) (sz n : Word) (s : Kmem) : Prop :=
  n = 0 ∨
  (0 < n.toInt ∧ sz + n ≤ Vm.USERTOP ∧
    Available s ((pageUp (sz + n).toNat - pageUp sz.toNat) / 4096) ∧
    Unmapped d (pageUp sz.toNat) (pageUp (sz + n).toNat)) ∨
  (n.toInt < 0 ∧ sz ≠ 0 ∧ sz + n ≠ 0)

variable {img : Image} {d : Pgdir} {sz n : Word} {s : Kmem} {m : Machine} {p : Slot}

theorem resizeDir_iff {S : Nat → Prop} (hsz : sz ≤ Vm.USERTOP) (h : Layout img d S)
    (hf : ∀ v ∈ s.freelist, Frame img v) :
    wp (resizeDir img d sz n) (fun r _ => ¬(n ≠ 0 ∧ r.2 = 0)) s ↔ Resizable d sz n s := by
  have hsz' : sz.toNat ≤ 0xA0000 := hsz
  have hint := BitVec.toInt_eq_toNat_cond n
  have hlt := n.isLt
  have hzero : n = 0 ↔ n.toInt = 0 := by
    rw [← BitVec.toInt_inj]
    rfl
  unfold resizeDir
  by_cases hpos : 0 < n.toInt
  · have hne : n ≠ 0 := by
      rw [ne_eq, hzero]
      omega
    have hsum : (sz + n).toNat = sz.toNat + n.toNat := by
      rw [BitVec.toNat_add]
      omega
    have hnew : sz + n ≠ 0 := by
      rw [ne_eq, ← BitVec.toNat_inj, hsum]
      have : (0 : Word).toNat = 0 := rfl
      omega
    simp only [if_pos hpos, hne, ne_eq, not_false_eq_true, true_and]
    rw [Vm.allocuvm_iff (BitVec.le_def.mpr (by omega)) hnew h hf]
    constructor
    · exact fun hw => .inr (.inl ⟨hpos, hw⟩)
    · rintro (h0 | ⟨-, hw⟩ | ⟨hneg, -⟩)
      · exact absurd h0 hne
      · exact hw
      · omega
  by_cases hneg : n.toInt < 0
  · have hne : n ≠ 0 := by
      rw [ne_eq, hzero]
      omega
    simp only [if_neg hpos, if_pos hneg, hne, ne_eq, not_false_eq_true, true_and]
    rw [Vm.deallocuvm_iff hsz' h.freeable hf]
    constructor
    · exact fun hw => .inr (.inr ⟨hneg, hw⟩)
    · rintro (h0 | ⟨hpos', -⟩ | ⟨-, hw⟩)
      · exact absurd h0 hne
      · exact absurd hpos' hpos
      · exact hw
  · have h0 : n = 0 := hzero.mpr (by omega)
    rw [if_neg hpos, if_neg hneg, wp.pure]
    exact iff_of_true (fun hc => hc.1 h0) (.inl h0)

namespace Machine

/-- The lock is released exactly where the size is changed. -/
theorem atomic_iff_resizes (h : Ready img m p s) : Atomic img m p n s ↔
    wp (resizeDir img (m.dir (m.table.proc p).pgdir) (m.table.proc p).sz n)
      (fun r _ => ¬(n ≠ 0 ∧ r.2 = 0)) s := by
  obtain ⟨cpu, hrel, hncli⟩ := Xv6.release_acquired m.cpu
  obtain ⟨cpu', hpop, hncli'⟩ := Xv6.popcli_pushcli cpu
  have hswitch : switchuvm (m.table.proc p).pgdir cpu = some cpu' := by
    rw [switchuvm, if_neg h.pgdir, hpop]
  unfold Atomic growproc
  rw [wp.bind, wp.lift (Xv6.acquire_free h.unlocked), wp.bind]
  refine iff_of_eq (congrArg (wp _ · s) (funext₂ fun r t => propext ?_))
  dsimp only
  split
  · next hfail =>
    -- the lock is still held
    rw [wp.pure]
    exact iff_of_false (fun hc => Bool.noConfusion hc.1) fun hc => hc hfail
  · next hok =>
    rw [wp.bind, wp.lift hrel, wp.bind, wp.lift hswitch, wp.pure]
    exact iff_of_true ⟨rfl, hncli'.trans hncli, nofun⟩ hok

theorem growproc_atomic_iff (h : Ready img m p s) : Atomic img m p n s ↔
    Resizable (m.dir (m.table.proc p).pgdir) (m.table.proc p).sz n s := by
  obtain ⟨S, hlayout⟩ := h.layout
  rw [atomic_iff_resizes h, resizeDir_iff h.size hlayout h.frames]

/-- An address space with its first page mapped. -/
theorem exists_layout : ∃ d, Layout Vm.smallImage d fun a => a < 4096 := by
  have hs : Vm.Pool Vm.smallImage True (0 + 13) Vm.ample := Vm.ample_pool.mono (by omega)
  obtain ⟨o, s', -, -, hnone, hsome⟩ := Vm.setupkvm_wp hs
  cases o with
  | none => exact absurd trivial (hnone rfl)
  | some d =>
    have hframe : Frame Vm.smallImage 0x110000 := ⟨by decide, by decide, by decide, by decide⟩
    have hset := (hsome d rfl).setPte (a := 0) (by decide) hframe
    refine ⟨_, hset.congr fun a _ => ?_⟩
    have hzero : (0 : Word).toNat = 0 := rfl
    rw [false_or, hzero]
    omega

/-- Init runs with its first page. -/
def initMachine (d : Pgdir) : Machine :=
  ⟨(userinit 1 2).setState 0 .running, fun _ => d, ⟨false, none⟩, ⟨0, 0, false, true⟩⟩

@[simp] theorem initMachine_proc : (initMachine d).table.proc 0 =
    ⟨PGSIZE, 2, 1, .running, 1, none, .null, false, false⟩ := rfl

theorem initMachine_ready (h : Layout Vm.smallImage d fun a => a < 4096) :
    Ready Vm.smallImage (initMachine d) 0 Vm.ample :=
  ⟨rfl, by rw [initMachine_proc]; decide, by simp, ⟨_, h⟩, Vm.ample_frames⟩

/-- Init gives its page back but for some bytes. -/
theorem growproc_atomic_shrink : ∃ d, Atomic Vm.smallImage (initMachine d) 0 (-4000) Vm.ample := by
  obtain ⟨d, hd⟩ := exists_layout
  exact ⟨d, (growproc_atomic_iff (initMachine_ready hd)).mpr
    (.inr (.inr (by rw [initMachine_proc]; decide)))⟩

/-- A growth beyond `USERTOP` fails with the lock held. -/
theorem growproc_keeps_lock :
    ¬∀ img m p n s, Ready img m p s → Atomic img m p n s := by
  intro h
  obtain ⟨d, hd⟩ := exists_layout
  have hready := initMachine_ready hd
  have hatomic := h _ _ 0 0x7FFFFFFF _ hready
  rw [atomic_iff_resizes hready] at hatomic
  rcases (resizeDir_iff hready.size hd hready.frames).mp hatomic with h0 | ⟨-, htop, -⟩ | ⟨hneg, -⟩
  · exact absurd h0 (by decide)
  · rw [initMachine_proc] at htop
    exact absurd htop (by decide)
  · exact absurd hneg (by decide)

end Machine

-- ---------------------------------------------------------------------------
-- The step of the machine
-- ---------------------------------------------------------------------------

theorem allocLoop_size {oldsz newsz : Word} {as : List Word} :
    Ensures (Vm.allocLoop img oldsz newsz d as) fun r => r.2 = newsz ∨ r.2 = 0 := by
  induction as generalizing d with
  | nil => exact .pure (.inl rfl)
  | cons a as ih =>
    refine .seq fun mem => .ite (fun _ => .seq fun _ => .pure (.inr rfl)) fun _ => ?_
    exact .seq fun _ => .seq fun _ => ih

theorem allocuvm_size {oldsz newsz : Word} :
    Ensures (Vm.allocuvm img d oldsz newsz) fun r => ∃ mem, r.2 = allocuvm oldsz newsz mem := by
  refine .ite (fun htop => .pure ⟨false, (if_pos htop).symm⟩) fun htop => ?_
  refine .ite (fun hlt => .pure ⟨false, ?_⟩) fun hlt => .seq fun _ => allocLoop_size.mono ?_
  · exact ((if_neg htop).trans (if_pos hlt)).symm
  · have htop : ¬USERTOP < newsz := htop
    rintro r (hr | hr)
    · exact ⟨true, by rw [hr, allocuvm, if_neg htop, if_neg hlt, if_pos rfl]⟩
    · exact ⟨false, by rw [hr, allocuvm, if_neg htop, if_neg hlt, if_neg Bool.false_ne_true]⟩

theorem deallocuvm_size {oldsz newsz : Word} :
    Ensures (Vm.deallocuvm img d oldsz newsz) fun r => r.2 = deallocuvm oldsz newsz := by
  refine .ite (fun hle => .pure (if_pos hle).symm) fun hle => ?_
  exact .seq fun _ => .seq fun _ => .pure (if_neg hle).symm

theorem resizeDir_size :
    Ensures (resizeDir img d sz n) fun r => ∃ mem, r.2 = newSize sz n mem := by
  refine .ite (fun hpos => allocuvm_size.mono fun r hr => ?_) fun hpos =>
    .ite (fun hneg => deallocuvm_size.mono fun r hr => ⟨false, ?_⟩) fun hneg => .pure ⟨false, ?_⟩
  · exact hr.imp fun mem hr => by rw [hr, newSize, if_pos hpos]
  · rw [hr, newSize, if_neg hpos, if_pos hneg]
  · rw [newSize, if_neg hpos, if_neg hneg]

/-- What `growproc` does to the table is the step of the kernel, which is
wedged where the lock is left held. -/
theorem growproc_refines : Ensures (m.growproc img p n) fun r => ∃ mem,
    (r.2 = -1 ∧ r.1.lock.locked = true ∧
      growproc m.table p n mem = { r.1.table with wedged := true }) ∨
    (r.2 = 0 ∧ r.1.lock.locked = false ∧ growproc m.table p n mem = r.1.table) := by
  refine .bind (.lift fun _ => Xv6.acquire_locked) fun r hlocked =>
    .bind resizeDir_size fun r hr => ?_
  obtain ⟨mem, hr⟩ := hr
  have hfails : growFails m.table p n mem = true ↔ n ≠ 0 ∧ r.2 = 0 := by
    simp [growFails, hr]
  refine .ite (fun hfail => .pure ⟨mem, .inl ⟨rfl, hlocked, ?_⟩⟩) fun hok => ?_
  · exact if_pos (hfails.mpr hfail)
  · refine .bind (.lift fun _ => Xv6.release_unlocked) fun r' hfree => .seq fun _ =>
      .pure ⟨mem, .inr ⟨rfl, hfree, ?_⟩⟩
    rw [growproc, if_neg (mt hfails.mp hok), hr]

end PerrOS.Ptable
