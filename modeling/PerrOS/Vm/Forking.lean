import PerrOS.Vm.Copy

/-!
# A fork that fails

`fork` fails for want of a slot or of a page. Without a slot it has done
nothing yet; without a page the slot that it has taken keeps its new pid, and
what `setupkvm` has taken before it gave up is lost.
-/

namespace PerrOS.Vm

open Lib (wp wlp)
open Function (update)
open Xv6 (Slot slots mem_slots)

variable {img : Image} {t t' : Table} {cur i : Slot} {d : Pgdir} {sz stackSz v : Word}
variable {s₀ s s' : Kmem} {k n : Nat}

/-- What is left as it was: the free pages, the free slots and the reference
counts. -/
structure Traceless (t t' : Table) (s s' : Kmem) : Prop where
  frames : s'.freelist.Perm s.freelist
  slots : ∀ i, (t.proc i).state = .unused → (t'.proc i).state = .unused ∧ (t'.proc i).pid = 0
  files : t'.fileRef = t.fileRef
  inodes : t'.inodeRef = t.inodeRef

/-- A call of `fork` that returns -1 leaves no trace. -/
def FailsCleanly (img : Image) (t : Table) (cur : Slot) (s : Kmem) : Prop :=
  wlp (fork img t cur) (fun r s' => r.2 = -1 → Traceless t r.1 s s') s

/-- The caller of `fork` is a running process with a heap and a stack. -/
structure Forks (img : Image) (t : Table) (cur : Slot) (s : Kmem) : Prop where
  nextpid : 0 < t.nextpid
  running : (t.proc cur).state = .running
  segmented : ∃ d, (t.proc cur).pgdir = some d ∧
    Segmented img d (t.proc cur).sz (t.proc cur).stackSz s

/-- The pages that a `fork` takes: the kernel stack, and the copy. -/
def forkPages (p : Proc) : Nat := 1 + copyPages p.sz.toNat p.stackSz.toNat

-- ---------------------------------------------------------------------------
-- What is left of the free list
-- ---------------------------------------------------------------------------

theorem Drawn.available_iff (h : Drawn s₀ s k) : Available s₀ (k + n) ↔ Available s n := by
  unfold Available
  rw [h.freelist, h.grant, h.calls, List.length_drop]
  constructor
  · rintro ⟨hlen, hg⟩
    refine ⟨by omega, fun i hi => ?_⟩
    rw [Nat.add_assoc]
    exact hg (k + i) (by omega)
  · rintro ⟨hlen, hg⟩
    have hk := h.available.1
    refine ⟨by omega, fun i hi => ?_⟩
    by_cases hik : i < k
    · exact h.available.2 i hik
    · have := hg (i - k) (by omega)
      rwa [Nat.add_assoc, Nat.add_sub_cancel' (Nat.not_lt.mp hik)] at this

theorem Segmented.drawn (h : Segmented img d sz stackSz s) (hs : Drawn s s' k) :
    Segmented img d sz stackSz s' := by
  have hsub : s'.freelist.Sublist s.freelist := by
    rw [hs.freelist]
    exact List.drop_sublist ..
  exact ⟨h.mapped, h.le, h.top, h.aligned, fun v hv => h.frames v (hsub.subset hv),
    h.nodup.sublist hsub, fun u v w a hu hw => h.unused u v w a hu (hsub.subset hw)⟩

-- ---------------------------------------------------------------------------
-- allocproc
-- ---------------------------------------------------------------------------

theorem unused_of_find (h : slots.find? (fun i => (t.proc i).state = .unused) = some i) :
    (t.proc i).state = .unused := by
  have := List.find?_some h
  simpa using this

theorem find_eq_none : slots.find? (fun i => (t.proc i).state = .unused) = none ↔
    ∀ i, (t.proc i).state ≠ .unused := by
  simp [List.find?_eq_none]

/-- The slot that `allocproc` finds gets a new pid, with a kernel stack or
without. -/
theorem allocproc_wp (h : slots.find? (fun i => (t.proc i).state = .unused) = some i)
    (hf : ∀ v ∈ s.freelist, Frame img v) :
    wp (allocproc t) (fun r s' => (r.1.proc i).pid = t.nextpid ∧
      ((r.2 = none ∧ ¬ Available s 1) ∨
       (r.2 = some i ∧ Drawn s s' 1 ∧ Frame img (r.1.proc i).kstack ∧
        ∀ j, j ≠ i → r.1.proc j = t.proc j))) s := by
  unfold allocproc
  rw [h]
  dsimp only
  refine wp.seq ((Drawn.refl s).kalloc hf) fun v s' hv => ?_
  obtain ⟨-, ⟨hz, -, hno⟩ | ⟨hz, hget, hs'⟩⟩ := hv
  · rw [if_pos hz]
    refine wp.pure.mpr ⟨?_, .inl ⟨rfl, hno⟩⟩
    simp [Table.set]
  · rw [if_neg hz]
    refine wp.pure.mpr ⟨?_, .inr ⟨rfl, hs', ?_, fun j hj => ?_⟩⟩
    · simp [Table.set]
    · simpa [Table.set] using hf v (List.mem_of_getElem? hget)
    · simp [Table.set, hj]

-- ---------------------------------------------------------------------------
-- fork
-- ---------------------------------------------------------------------------

/-- Without a free slot `fork` returns at once. -/
theorem fork_full (h : ∀ i, (t.proc i).state ≠ .unused) : FailsCleanly img t cur s := by
  refine .of_wp ?_
  unfold fork allocproc
  rw [find_eq_none.mpr h]
  simp only [pure_bind]
  exact wp.pure.mpr fun _ => ⟨.refl _, fun i hi => absurd hi (h i), rfl, rfl⟩

section Slot

variable (h : Forks img t cur s)
variable (hi : slots.find? (fun i => (t.proc i).state = .unused) = some i)
include h hi

theorem Forks.ne : cur ≠ i := fun hc => by
  have hu := unused_of_find hi
  rw [← hc, h.running] at hu
  cases hu

/-- With a page too few `fork` fails, and the slot keeps the pid that it was
given. -/
theorem fork_short (hno : ¬ Available s (forkPages (t.proc cur))) :
    wp (fork img t cur) (fun r _ => r.2 = -1 ∧ (r.1.proc i).pid = t.nextpid) s := by
  obtain ⟨d, hd, hseg⟩ := h.segmented
  unfold fork
  refine wp.seq (allocproc_wp hi hseg.frames) fun r s₁ hr => ?_
  obtain ⟨hpid, ⟨hr, -⟩ | ⟨hr, hs₁, hstack, hkeep⟩⟩ := hr
  · rw [hr]
    exact wp.pure.mpr ⟨rfl, hpid⟩
  · have hproc := hkeep cur (h.ne hi)
    rw [hr]
    dsimp only
    rw [hproc, hd]
    dsimp only
    refine wp.seq (copyuvm_wp (hseg.drawn hs₁)) fun o s₂ ho => ?_
    obtain ⟨rfl, -, hpool⟩ | ⟨child, -, -, -, hav⟩ := ho
    · refine wp.seq (hpool.kfree hstack) fun _ _ _ => wp.pure.mpr ⟨rfl, ?_⟩
      simpa [Table.set] using hpid
    · exact absurd (hs₁.available_iff.mpr hav) hno

/-- With enough pages `fork` returns the new pid, if it returns. -/
theorem fork_enough (hav : Available s (forkPages (t.proc cur))) :
    wlp (fork img t cur) (fun r _ => r.2 = t.nextpid) s := by
  obtain ⟨d, hd, hseg⟩ := h.segmented
  unfold fork
  refine .seq (.of_wp (allocproc_wp hi hseg.frames)) fun r s₁ hr => ?_
  obtain ⟨hpid, ⟨-, hno⟩ | ⟨hr, hs₁, -, hkeep⟩⟩ := hr
  · exact absurd hav (not_available hno (Nat.le_add_right ..))
  · have hproc := hkeep cur (h.ne hi)
    rw [hr]
    dsimp only
    rw [hproc, hd]
    dsimp only
    refine .seq (.of_wp (copyuvm_wp (hseg.drawn hs₁))) fun o s₂ ho => ?_
    obtain ⟨-, hno, -⟩ | ⟨child, rfl, -⟩ := ho
    · exact absurd (hs₁.available_iff.mp hav) hno
    · exact .seq (R := fun _ _ => True) (fun _ _ _ => trivial) fun _ _ _ => .pure hpid

end Slot

/-- `fork` fails without a trace exactly where it does not fail for want of a
page. -/
theorem fork_traceless_iff (h : Forks img t cur s) : FailsCleanly img t cur s ↔
    (∀ i, (t.proc i).state ≠ .unused) ∨ Available s (forkPages (t.proc cur)) := by
  have hpos := h.nextpid
  cases hi : slots.find? (fun i => (t.proc i).state = .unused) with
  | none =>
    have hfull := find_eq_none.mp hi
    exact iff_of_true (fork_full hfull) (.inl hfull)
  | some i =>
    have hu := unused_of_find hi
    constructor
    · intro hc
      by_contra hno
      obtain ⟨r, s', hr, hret, hpid⟩ := fork_short h hi (not_or.mp hno).2
      have hz := ((hc r s' hr hret).slots i hu).2
      omega
    · rintro (hfull | hav)
      · exact absurd hu (hfull i)
      · refine (fork_enough h hi hav).mono fun r s' hr hret => ?_
        omega

/-- The table of a single process, with the next pid 3. -/
def oneProc (p : Proc) : Table where
  proc i := if i = 0 then p else { p with pgdir := none, kstack := 0, state := .unused, pid := 0 }
  nextpid := 3
  fileRef _ := 0
  inodeRef _ := 1

theorem fork_traceless_page : ∃ d s, FailsCleanly smallImage (oneProc (onePage d)) 0 s := by
  obtain ⟨d, s, -, hs, hdrawn⟩ := exists_segmented
  have hav : Available s (forkPages (onePage d)) := by
    refine (hdrawn.available_iff).mp ⟨?_, fun _ _ => rfl⟩
    have hlen : ample.freelist.length = 200 := by simp [ample]
    have hpages : forkPages (onePage d) = 16 := by
      have : copyPages 8192 0x9F000 = 15 := by decide
      exact congrArg (1 + ·) this
    rw [hlen, hpages]
    decide
  have hpid : 0 < (oneProc (onePage d)).nextpid := (by decide : (0 : Int) < 3)
  exact ⟨d, s, (fork_traceless_iff ⟨hpid, rfl, d, rfl, hs⟩).mpr (.inr hav)⟩

/-- Two free pages. -/
def scarce : Kmem where
  mem _ := 0
  freelist := [0x110000, 0x111000]
  grant _ := true
  calls := 0

/-- A process without user pages. -/
def bare : Proc := { onePage ⟨0x300000, fun _ => none⟩ with sz := 4096, stackSz := 0xA0000 }

theorem segmented_bare : Segmented smallImage ⟨0x300000, fun _ => none⟩ 4096 0xA0000 scarce where
  mapped va hva := by
    have hup : pageUp (4096 : Word).toNat = 4096 := by decide
    have htop : (0xA0000 : Word).toNat = 0xA0000 := rfl
    refine iff_of_false ?_ ?_
    · rintro ⟨pte, hpte, -⟩
      cases hpte
    · rw [UserPages, hup, htop]
      unfold Range
      omega
  le := by decide
  top := by decide
  aligned := by decide
  frames v hv := by
    have hv : v = 0x110000 ∨ v = 0x111000 := by simpa [scarce] using hv
    rcases hv with rfl | rfl <;> exact ⟨by decide, by decide, by decide, by decide⟩
  nodup := by decide
  unused u v w a hu hw hv := by
    have hw : w = 0x110000 ∨ w = 0x111000 := by simpa [scarce] using hw
    cases hu with
    | dir =>
      refine not_inPage_of_ne (v := 0x300000) (by decide) ?_ ?_ hv
      · rcases hw with rfl | rfl <;> decide
      · rcases hw with rfl | rfl <;> decide
    | table i pgtab hi => cases hi
    | page va pte _ hpte => cases hpte

/-- With two free pages there is none for a page table: the directory's page is
lost, and the slot keeps its pid. -/
theorem fork_leaves_trace : Forks smallImage (oneProc bare) 0 scarce ∧
    ((fork smallImage (oneProc bare) 0).run scarce).map (fun r =>
      (r.1.2, (r.1.1.proc 1).pid, r.2.freelist)) = some (-1, 3, [0x110000]) ∧
    ¬ FailsCleanly smallImage (oneProc bare) 0 scarce := by
  have hrun : ((fork smallImage (oneProc bare) 0).run scarce).map (fun r =>
      (r.1.2, (r.1.1.proc 1).pid, r.2.freelist)) = some (-1, 3, [0x110000]) := by
    decide +kernel
  refine ⟨⟨by decide, rfl, _, rfl, segmented_bare⟩, hrun, fun hc => ?_⟩
  obtain ⟨r, hr, he⟩ := Option.map_eq_some_iff.mp hrun
  simp only [Prod.mk.injEq] at he
  have hlost := (hc r.1 r.2 hr he.1).frames.length_eq
  rw [he.2.2] at hlost
  exact absurd hlost (by decide)

end PerrOS.Vm
