import PerrOS.Vm.Process
import PerrOS.Vm.Segments

/-!
# The gap between heap and stack

The heap ends at `sz` and the stack begins at `stackSz`. Both ends move, each
under a check of its own, and both keep a page between them unmapped.
-/

namespace PerrOS.Vm

open Lib (Ensures System)
open Pgdir (Within)
open Xv6 (Slot)

variable {img : Image} {p : Proc}

structure Gap (p : Proc) : Prop where
  aligned : p.stackSz.toNat % 4096 = 0
  top : p.stackSz.toNat + 4096 ≤ 0xA0000
  gap : p.sz.toNat + 4096 ≤ p.stackSz.toNat
  unmapped : ∃ d, p.pgdir = some d ∧
    d.Within fun n => ¬ Range (pageUp p.sz.toNat) p.stackSz.toNat n

namespace Gap

theorem toNat_guard (h : Gap p) : (p.stackSz - PGSIZE).toNat = p.stackSz.toNat - 4096 := by
  have := h.gap
  unfold PGSIZE
  bv_omega

theorem toNat_grown (h : Gap p) {n : Word} (hn : 0 < n.toInt) :
    (p.sz + n).toNat = p.sz.toNat + n.toNat := by
  have := h.gap
  have := h.top
  have : n.toNat < 2 ^ 31 := by
    rw [BitVec.toInt_eq_toNat_cond] at hn
    split at hn <;> omega
  rw [BitVec.toNat_add, Nat.mod_eq_of_lt (by omega)]

/-- A process keeps its gap while only its page tables change and nothing
comes to be mapped in the gap. -/
theorem setPgdir (h : Gap p) {d : Pgdir}
    (hd : d.Within fun n => ¬ Range (pageUp p.sz.toNat) p.stackSz.toNat n) :
    Gap { p with pgdir := some d } := ⟨h.aligned, h.top, h.gap, d, rfl, hd⟩

theorem growproc (h : Gap p) (n : Word) : Ensures (growproc img p n) fun r => Gap r.1 := by
  obtain ⟨d, hd, hmap⟩ := h.unmapped
  have htop := h.top
  have hgap := h.gap
  unfold Vm.growproc
  rw [hd]
  refine .ite (fun hn => .ite (fun _ => .pure h) fun hle => ?_) fun _ => .ite (fun _ => ?_) fun _ =>
    .pure h
  · -- growth stops a page below the stack
    have hsum := h.toNat_grown hn
    have hle : (p.sz + n).toNat ≤ p.stackSz.toNat - 4096 := h.toNat_guard ▸ Nat.not_lt.mp hle
    have hpos : 0 < n.toNat := by
      rw [BitVec.toInt_eq_toNat_cond] at hn
      split at hn <;> omega
    refine .bind (allocuvm_within hmap) fun r hr => ?_
    rcases hr with ⟨hz, hr⟩ | ⟨hlt, -⟩ | ⟨hz, -, hr⟩
    · rw [if_pos hz]
      exact .pure (h.setPgdir hr)
    · have hlt : (p.sz + n).toNat < p.sz.toNat := hlt
      omega
    · rw [if_neg (by rw [hz, ← BitVec.toNat_inj]; simp; omega), hz]
      refine .pure ⟨h.aligned, htop, by dsimp only; omega, r.1, rfl, hr.mono fun m hm => ?_⟩
      unfold Range pageUp at *
      dsimp only
      omega
  · refine .bind (deallocuvm_within (by omega) hmap) fun r hr => ?_
    rcases hr with ⟨-, rfl⟩ | ⟨hlt, hz, hr⟩
    · exact .ite (fun _ => .pure (h.setPgdir hmap)) fun _ => .pure (h.setPgdir hmap)
    · have hlt : (p.sz + n).toNat < p.sz.toNat := hlt
      refine .ite (fun _ => .pure (h.setPgdir (hr.mono fun m hm => hm.1))) fun _ => ?_
      rw [hz]
      refine .pure ⟨h.aligned, htop, by dsimp only; omega, r.1, rfl, hr.mono fun m hm => ?_⟩
      unfold Range pageUp at *
      dsimp only
      omega

/-- The stack grows by a page only if another one stays free below it. -/
theorem trapPgflt (h : Gap p) (rcr2 : Word) (user : Bool) :
    Ensures (trapPgflt img p rcr2 user) Gap := by
  obtain ⟨d, hd, hmap⟩ := h.unmapped
  have hal := h.aligned
  have htop := h.top
  have hgap := h.gap
  have hguard := h.toNat_guard
  unfold Vm.trapPgflt
  rw [hd]
  refine .ite (fun hc => ?_) fun _ => .ite (fun _ => .failure) fun _ => .pure
    ⟨hal, htop, hgap, d, rfl, hmap⟩
  have hroom : (p.sz + PGSIZE).toNat < (p.stackSz - PGSIZE).toNat := hc.2.2
  have hsum : (p.sz + PGSIZE).toNat = p.sz.toNat + 4096 := by
    rw [BitVec.toNat_add, toNat_PGSIZE, Nat.mod_eq_of_lt (by omega)]
  have hstack : p.stackSz.toNat - 4096 + 4096 = p.stackSz.toNat := Nat.sub_add_cancel (by omega)
  refine .bind (allocuvm_within hmap) fun r hr => .pure ?_
  have hr : r.1.Within fun n => ¬ Range (pageUp p.sz.toNat) (p.stackSz - PGSIZE).toNat n := by
    rcases hr with ⟨-, hr⟩ | ⟨-, rfl⟩ | ⟨-, -, hr⟩
    · refine hr.mono fun n hn => ?_
      unfold Range at *
      omega
    · refine hmap.mono fun n hn => ?_
      unfold Range at *
      omega
    · refine hr.mono fun n hn => ?_
      unfold Range pageUp at *
      omega
  refine ⟨?_, ?_, ?_, r.1, rfl, hr⟩ <;> dsimp only <;> omega

end Gap

-- ---------------------------------------------------------------------------
-- Fork
-- ---------------------------------------------------------------------------

variable {t : Table} {i : Slot}

/-- Every process of the table keeps the gap. -/
def Guarded (t : Table) : Prop := ∀ i, (t.proc i).live → Gap (t.proc i)

theorem Guarded.set (h : Guarded t) (hp : p.live → Gap p) : Guarded (t.set i p) := by
  intro j hj
  rcases eq_or_ne j i with rfl | hne
  · simp only [Table.set, Function.update_self] at hj ⊢
    exact hp hj
  · simp only [Table.set, Function.update_of_ne hne] at hj ⊢
    exact h j hj

/-- A new entry does not hold a process yet, and the others stay. -/
theorem allocproc_guarded (h : Guarded t) :
    Ensures (allocproc t) fun r => Guarded r.1 ∧
      ∀ j, (t.proc j).live → r.1.proc j = t.proc j := by
  unfold allocproc
  split
  · exact .pure ⟨h, fun _ _ => rfl⟩
  · next i hi =>
    have hunused : (t.proc i).state = .unused := by simpa using List.find?_some hi
    have others {p : Proc} (hp : ¬ p.live) : Guarded ({ t with nextpid := t.nextpid + 1 }.set i p) ∧
        ∀ j, (t.proc j).live → ({ t with nextpid := t.nextpid + 1 }.set i p).proc j = t.proc j := by
      refine ⟨Guarded.set (t := { t with nextpid := t.nextpid + 1 }) h fun hl => absurd hl hp, ?_⟩
      intro j hj
      refine Function.update_of_ne ?_ _ _
      rintro rfl
      simp [Proc.live, hunused] at hj
    refine .seq fun kstack => .ite (fun _ => .pure (others ?_)) fun _ => .pure (others ?_)
    · simp [Proc.live]
    · simp [Proc.live]

theorem dupFiles_proc (fs : List (Option Nat)) :
    Ensures (dupFiles t fs) fun t' => t'.proc = t.proc := by
  induction fs generalizing t with
  | nil => exact .pure rfl
  | cons f fs ih =>
    cases f with
    | none => exact ih
    | some f =>
      unfold dupFiles filedup
      refine .bind (P := fun t' => t'.proc = t.proc) (.ite (fun _ => .failure) fun _ => .pure rfl) ?_
      intro t' ht
      exact ht ▸ ih

theorem fork_guarded (h : Guarded t) (hcur : (t.proc i).live) :
    Ensures (fork img t i) fun r => Guarded r.1 := by
  unfold fork
  refine .bind (allocproc_guarded h) fun r hr => ?_
  obtain ⟨hr, hkeep⟩ := hr
  split
  · exact .pure hr
  next j hj =>
  dsimp only
  rw [hkeep i hcur]
  obtain ⟨d, hd, hmap⟩ := (h i hcur).unmapped
  have hal := (h i hcur).aligned
  have htop := (h i hcur).top
  have hgap := (h i hcur).gap
  rw [hd]
  refine .bind (copyuvm_within (by omega) hal) fun o ho => ?_
  cases o with
  | none => exact .seq fun _ => .pure (hr.set (by simp [Proc.live]))
  | some d' =>
    refine .bind (dupFiles_proc _) fun t' ht => .pure ?_
    refine Guarded.set ?_ fun _ => ⟨hal, htop, hgap, d', rfl, (ho d' rfl).mono fun n hn => ?_⟩
    · intro k hk
      have hproc : (idup t' (t.proc i).cwd).proc = r.1.proc := ht
      rw [hproc] at hk ⊢
      exact hr k hk
    · unfold Range Above at *
      dsimp only
      omega

-- ---------------------------------------------------------------------------
-- Every sequence of operations
-- ---------------------------------------------------------------------------

def Machine.system (img : Image) : System Machine Act :=
  .ofNext (fun m => Guarded m.table) (Machine.next img)

theorem Machine.next_guarded {m m' : Machine} {a : Act} (h : Guarded m.table)
    (hs : m.next img a = some m') : Guarded m'.table := by
  obtain ⟨hl, hs⟩ := Option.ite_none_right_eq_some.mp hs
  cases a with
  | sbrk i n =>
    obtain ⟨r, hr, rfl⟩ := Option.map_eq_some_iff.mp hs
    exact h.set fun _ => (h i hl).growproc n _ _ _ hr
  | fault i rcr2 user =>
    obtain ⟨r, hr, rfl⟩ := Option.map_eq_some_iff.mp hs
    exact h.set fun _ => (h i hl).trapPgflt rcr2 user _ _ _ hr
  | fork i =>
    obtain ⟨r, hr, rfl⟩ := Option.map_eq_some_iff.mp hs
    exact fork_guarded h hl _ _ _ hr

/-- After any sequence of `sbrk`, page faults and forks, with `kalloc` failing
anywhere: no check has wrapped, and the page below the stack and every other
page between heap and stack is unmapped. -/
theorem guard_gap {m : Machine} (h : (Machine.system img).Reachable m) {i : Slot}
    (hi : (m.table.proc i).live) :
    let p := m.table.proc i
    p.stackSz.toNat % 4096 = 0 ∧
      (p.stackSz - PGSIZE).toNat + 4096 = p.stackSz.toNat ∧
      (p.sz + PGSIZE).toNat = p.sz.toNat + 4096 ∧
      (∀ n : Word, 0 < n.toInt → (p.sz + n).toNat = p.sz.toNat + n.toNat) ∧
      p.sz ≤ p.stackSz - PGSIZE ∧
      PGROUNDUP p.sz ≤ p.stackSz - PGSIZE ∧
      ∃ d, p.pgdir = some d ∧ ∀ va, PGROUNDUP p.sz ≤ va → va < p.stackSz → ¬ d.Mapped va := by
  have hg : Guarded m.table := h.invariant (fun _ hm => hm) fun _ _ _ _ hm hs =>
    Machine.next_guarded hm hs
  have hp := hg i hi
  obtain ⟨d, hd, hmap⟩ := hp.unmapped
  have hal := hp.aligned
  have htop := hp.top
  have hgap := hp.gap
  have hguard := hp.toNat_guard
  have hup : (PGROUNDUP (m.table.proc i).sz).toNat = pageUp (m.table.proc i).sz.toNat :=
    toNat_PGROUNDUP (by omega)
  refine ⟨hal, by omega, ?_, fun n hn => hp.toNat_grown hn, ?_, ?_, d, hd, fun va hlo hhi hva => ?_⟩
  · rw [BitVec.toNat_add, toNat_PGSIZE, Nat.mod_eq_of_lt (by omega)]
  · rw [BitVec.le_def]
    omega
  · rw [BitVec.le_def, hup, hguard]
    unfold pageUp
    omega
  · rw [BitVec.le_def, hup] at hlo
    exact hmap va hva ⟨hlo, hhi⟩

/-- A kernel of 64 KiB. -/
def smallImage : Image where
  data := 0x103000
  kend := 0x110000
  data_aligned := by decide
  text := by decide
  below := by decide

/-- One process with a page of stack and none of its heap mapped, and a
`kalloc` that fails at its third call. -/
def smallMachine : Machine where
  table := {
    proc := fun i => ⟨4096, 0x9F000, some ⟨0x200000, fun _ => none⟩, 0x201000,
      if i = 0 then .running else .unused, 1, none, ⟨0, 0, 0⟩, false, fun _ => none, 0, "init"⟩
    nextpid := 2
    fileRef := fun _ => 0
    inodeRef := fun _ => 1 }
  kmem := ⟨fun _ => 0, [0x300000, 0x301000, 0x302000, 0x303000], fun n => n != 2, 0⟩

theorem guard_gap_small :
    ∃ m : Machine, (Machine.system smallImage).Reachable m ∧ (m.table.proc 0).sz = 12288 ∧
      (m.table.proc 0).stackSz = 0x9E000 ∧
      ∃ d, (m.table.proc 0).pgdir = some d ∧
        ∀ va, PGROUNDUP (m.table.proc 0).sz ≤ va → va < (m.table.proc 0).stackSz →
          ¬ d.Mapped va := by
  have start : Guarded smallMachine.table := by
    intro i _
    refine ⟨(by decide : (0x9F000 : Word).toNat % 4096 = 0),
      (by decide : (0x9F000 : Word).toNat + 4096 ≤ 0xA0000),
      (by decide : (4096 : Word).toNat + 4096 ≤ (0x9F000 : Word).toNat), _, rfl, ?_⟩
    rintro va ⟨p, hp, -⟩
    simp [Pgdir.pte] at hp
  have run : (Machine.system smallImage).Run
      [.sbrk 0 8192, .sbrk 0 8192, .fault 0 0x9EFFC true] _ := System.run_exec start rfl
  exact ⟨_, ⟨_, run⟩, by decide, by decide, (guard_gap ⟨_, run⟩ rfl).2.2.2.2.2.2⟩

end PerrOS.Vm
