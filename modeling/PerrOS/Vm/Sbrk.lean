import PerrOS.Vm.Guard
import PerrOS.Vm.Replace
import PerrOS.Vm.Rollback

/-!
# What sbrk promises

`growproc` changes the size by exactly `n` or leaves the process as it is,
except where the new size would not be positive.
-/

namespace PerrOS.Vm

open Lib (Ensures wp)
open Pgdir (Within)

variable {img : Image} {d : Pgdir} {p : Proc} {va n oldsz newsz : Word} {s : Kmem} {S : Nat → Prop}

/-- The pages of a heap of `sz` bytes above page 0, and those of the stack. -/
def UserPages (sz stackSz n : Nat) : Prop := Range 4096 (pageUp sz) n ∨ Range stackSz 0xA0000 n

/-- A process with a heap and a stack, the guard gap between them, and nothing
else mapped. -/
structure LaidOut (img : Image) (p : Proc) : Prop where
  sz : 0 < p.sz.toNat
  gap : p.sz.toNat + 4096 ≤ p.stackSz.toNat
  top : p.stackSz.toNat ≤ 0xA0000
  aligned : p.stackSz.toNat % 4096 = 0
  layout : ∃ d, p.pgdir = some d ∧ Layout img d (UserPages p.sz.toNat p.stackSz.toNat)

theorem Layout.mapped_iff (h : Layout img d S) (hva : va.toNat < 0xA0000) :
    d.Mapped va ↔ S va.toNat := by
  obtain ⟨pte, hpte⟩ := h.user_pte hva
  constructor
  · rintro ⟨q, hq, hpres⟩
    by_contra hn
    obtain rfl := h.absent va q hva hn hq
    simp [present] at hpres
  · exact fun hs => ⟨pte, hpte, (h.mapped va pte hva hs hpte).present⟩

/-- An unmapped page of the user's has a zero entry. -/
theorem Layout.pte_zero (h : Layout img d S) (hva : va.toNat < 0xA0000) (hn : ¬ S va.toNat) :
    d.pte va = some 0 := by
  obtain ⟨pte, hpte⟩ := h.user_pte hva
  rw [hpte, h.absent va pte hva hn hpte]

/-- `allocuvm` on pages that are not mapped maps them all or leaves the entries
as they are. -/
theorem Layout.allocuvm_settled (h : Layout img d S) (hle : oldsz ≤ newsz)
    (hold : oldsz.toNat ≤ 0xA0000) (hne : newsz ≠ 0) (hf : ∀ v ∈ s.freelist, Frame img v)
    (hfresh : ∀ m, Range (pageUp oldsz.toNat) (pageUp newsz.toNat) m → ¬ S m) :
    wp (Vm.allocuvm img d oldsz newsz) (fun r _ => (r.2 = 0 ∧ ∀ va, r.1.pte va = d.pte va) ∨
      (r.2 = newsz ∧ Filling (Range (pageUp oldsz.toNat) (pageUp newsz.toNat)) d r.1 ∧
        Layout img r.1 fun m => S m ∨ Range (pageUp oldsz.toNat) (pageUp newsz.toNat) m)) s := by
  have hs : Pool img False (0 + (pageUp newsz.toNat - pageUp oldsz.toNat) / 4096) s :=
    ⟨hf, False.elim, False.elim⟩
  have hsettled : Ensures (Vm.allocuvm img d oldsz newsz) _ :=
    Vm.allocuvm_settled hle fun va hva hlt => h.pte_zero hlt (hfresh _ hva)
  refine ((h.allocuvm hold hfresh hs).ensures hsettled).mono ?_
  rintro r t ⟨⟨-, hlayout⟩, hr | ⟨hsize, hfill⟩⟩
  · exact .inl hr
  · obtain ⟨hz, -⟩ | ⟨-, -, -, hl⟩ := hlayout
    · exact absurd (hsize.symm.trans hz) hne
    · exact .inr ⟨hsize, hfill, hl⟩

/-- What a call that returns `r` should have done. -/
structure Sbrk (p : Proc) (n : Word) (r : Proc × Int) : Prop where
  done : r.2 = 0 → (r.1.sz.toNat : Int) = p.sz.toNat + n.toInt ∧ ∃ d, r.1.pgdir = some d ∧
    ∀ va : Word, va < p.stackSz → (d.Mapped va ↔ Range 4096 (pageUp r.1.sz.toNat) va.toNat)
  failed : r.2 = -1 → r.1.sz = p.sz ∧ ∃ d d', p.pgdir = some d ∧ r.1.pgdir = some d' ∧
    ∀ va, d'.pte va = d.pte va

/-- A call that fails with the entries as they were. -/
theorem Sbrk.failing {d' : Pgdir} (hd : p.pgdir = some d) (he : ∀ va, d'.pte va = d.pte va) :
    Sbrk p n ({ p with pgdir := some d' }, -1) :=
  ⟨fun hz => absurd hz (by decide : (-1 : Int) ≠ 0), fun _ => ⟨rfl, d, d', hd, rfl, he⟩⟩

theorem Sbrk.exact {sz : Word} (hsz : (sz.toNat : Int) = p.sz.toNat + n.toInt)
    (hd : ∀ va : Word, va < p.stackSz → (d.Mapped va ↔ Range 4096 (pageUp sz.toNat) va.toNat)) :
    Sbrk p n ({ p with pgdir := some d, sz }, 0) :=
  ⟨fun _ => ⟨hsz, d, rfl, hd⟩, fun hz => absurd hz (by decide : (0 : Int) ≠ -1)⟩

/-- `growproc` is exact or has no effect, whatever `kalloc` finds. -/
def SbrkExact (img : Image) (p : Proc) (n : Word) (s : Kmem) : Prop :=
  wp (growproc img p n) (fun r _ => Sbrk p n r) s

namespace LaidOut

/-- The heap of a process as it is. -/
theorem heap (h : LaidOut img p) (hd : p.pgdir = some d) (hva : va < p.stackSz) :
    d.Mapped va ↔ Range 4096 (pageUp p.sz.toNat) va.toNat := by
  have hlt : va.toNat < p.stackSz.toNat := hva
  have htop := h.top
  obtain ⟨d', hd', hl⟩ := h.layout
  obtain rfl : d = d' := Option.some.inj (hd.symm.trans hd')
  rw [hl.mapped_iff (by omega)]
  refine or_iff_left fun hs => ?_
  unfold Range at hs
  omega

end LaidOut

/-- Growing is exact. -/
theorem sbrk_grow (h : LaidOut img p) (hf : ∀ v ∈ s.freelist, Frame img v) (hn : 0 < n.toInt) :
    SbrkExact img p n s := by
  have hsz := h.sz
  have hgap := h.gap
  have htop := h.top
  obtain ⟨d, hd, hl⟩ := h.layout
  have hint := BitVec.toInt_eq_toNat_cond n
  have hsum : (p.sz + n).toNat = p.sz.toNat + n.toNat := by
    rw [BitVec.toNat_add]
    omega
  have hpos : n.toInt = n.toNat := by omega
  have hguard : (p.stackSz - PGSIZE).toNat = p.stackSz.toNat - 4096 := by
    unfold PGSIZE
    bv_omega
  unfold SbrkExact growproc
  rw [hd]
  dsimp only
  rw [if_pos hn]
  split
  · have hsame : (p, (-1 : Int)) = ({ p with pgdir := some d }, -1) := by rw [← hd]
    rw [wp.pure, hsame]
    exact .failing hd fun _ => rfl
  next hroom =>
  have hroom : (p.sz + n).toNat ≤ p.stackSz.toNat - 4096 := hguard ▸ Nat.not_lt.mp hroom
  -- the pages to allocate lie in the gap
  have hfree (m : Nat) (hm : Range (pageUp p.sz.toNat) (pageUp (p.sz + n).toNat) m) :
      ¬ UserPages p.sz.toNat p.stackSz.toNat m := by
    have hal := h.aligned
    unfold UserPages Range pageUp at *
    omega
  have hle : p.sz ≤ p.sz + n := by
    rw [BitVec.le_def]
    omega
  have hne : p.sz + n ≠ 0 := by
    rw [ne_eq, ← BitVec.toNat_inj, hsum]
    have : (0 : Word).toNat = 0 := rfl
    omega
  refine wp.seq (hl.allocuvm_settled hle (by omega) hne hf hfree) fun r t hr => ?_
  obtain ⟨hz, he⟩ | ⟨hsize, -, hl'⟩ := hr
  · rw [if_pos hz, wp.pure]
    exact .failing hd he
  · rw [hsize, if_neg hne, wp.pure]
    refine .exact (by rw [hsum]; omega) fun va hva => ?_
    have hva : va.toNat < p.stackSz.toNat := hva
    rw [hl'.mapped_iff (by omega)]
    unfold UserPages Range pageUp
    omega

/-- `d'` is the directory `d` of `p` with the heap from `new` on freed. -/
structure Shrunk (p : Proc) (d d' : Pgdir) (new : Nat) : Prop where
  within : d'.Within fun m => (m < 0xA0000 → UserPages p.sz.toNat p.stackSz.toNat m) ∧
    ¬ Range (pageUp new) (pageUp p.sz.toNat) m
  cleared : Cleared (Range (pageUp new) (pageUp p.sz.toNat)) d d'

/-- What is left of the heap. -/
theorem Shrunk.mapped_iff (hs : Shrunk p d d' new) (h : LaidOut img p) (hd : p.pgdir = some d)
    (hle : new ≤ p.sz.toNat) (hva : va < p.stackSz) :
    d'.Mapped va ↔ Range 4096 (pageUp new) va.toNat := by
  have htop := h.top
  have hva' : va.toNat < p.stackSz.toNat := hva
  constructor
  · intro hm
    have := hs.within va hm
    unfold UserPages Range at *
    omega
  · intro hr
    have hout : ¬ Range (pageUp new) (pageUp p.sz.toNat) va.toNat := fun hc =>
      Nat.not_lt.mpr hc.1 hr.2
    have hsame : d'.pte va = d.pte va := (hs.cleared va).resolve_right fun hc => hout hc.1
    have hup : pageUp new ≤ pageUp p.sz.toNat := by
      unfold pageUp
      omega
    rw [Pgdir.Mapped, hsame]
    exact (h.heap hd hva).mpr ⟨hr.1, Nat.lt_of_lt_of_le hr.2 hup⟩

/-- Freeing all of the heap leaves the entries as they are only if there was
nothing above page 0. -/
theorem Shrunk.same_iff (hs : Shrunk p d d' 0) (h : LaidOut img p) (hd : p.pgdir = some d) :
    (∀ va, d'.pte va = d.pte va) ↔ p.sz.toNat ≤ 4096 := by
  have hgap := h.gap
  have htop := h.top
  constructor
  · intro he
    by_contra hgt
    have hpage : (4096 : Word).toNat = 4096 := rfl
    have hlt : 4096 < p.stackSz := by
      rw [BitVec.lt_def]
      omega
    have hmapped : d.Mapped 4096 := (h.heap hd hlt).mpr (by
      rw [hpage]
      unfold Range pageUp
      omega)
    rw [Pgdir.Mapped, ← he 4096] at hmapped
    have hr := (hs.mapped_iff h hd (Nat.zero_le _) hlt).mp hmapped
    exact absurd hr.2 (Nat.not_lt_zero _)
  · intro hle va
    refine (hs.cleared va).elim id fun hc => ?_
    have hva := hc.1
    obtain ⟨d₀, hd₀, hl⟩ := h.layout
    obtain rfl : d = d₀ := Option.some.inj (hd.symm.trans hd₀)
    rw [hc.2, hl.pte_zero]
    · unfold Range pageUp at hva
      omega
    · unfold UserPages Range pageUp at *
      omega

/-- `deallocuvm` frees the heap above the new size, unless the new size is not
below the old one. -/
theorem LaidOut.deallocuvm (h : LaidOut img p) (hd : p.pgdir = some d) (new : Word)
    (hf : ∀ v ∈ s.freelist, Frame img v) : ∃ r t, (Vm.deallocuvm img d p.sz new).run s = some (r, t) ∧
      (p.sz ≤ new ∧ r = (d, p.sz) ∨ new < p.sz ∧ r.2 = new ∧ Shrunk p d r.1 new.toNat) := by
  have hgap := h.gap
  have htop := h.top
  obtain ⟨d₀, hd₀, hl⟩ := h.layout
  obtain rfl : d = d₀ := Option.some.inj (hd.symm.trans hd₀)
  have hs : Pool img False 0 s := ⟨hf, False.elim, False.elim⟩
  have hwithin : d.Within fun m => m < 0xA0000 → UserPages p.sz.toNat p.stackSz.toNat m :=
    fun va hva hlt => (hl.mapped_iff hlt).mp hva
  have hdealloc : wp (Vm.deallocuvm img d p.sz new) _ s := hl.freeable.deallocuvm (by omega) hs
  have hruns := hdealloc.ensures
    ((deallocuvm_within (by omega) hwithin).and (deallocuvm_cleared (by omega)))
  obtain ⟨r, t, hr, -, hin, hcl⟩ := hruns
  refine ⟨r, t, hr, hin.imp_right ?_⟩
  rintro ⟨hlt, he, hw⟩
  exact ⟨hlt, he, hw, hcl⟩

/-- Shrinking is exact if some heap is left; to size 0 it frees the heap before
it fails, and below it does nothing and succeeds. -/
theorem sbrk_shrink (h : LaidOut img p) (hf : ∀ v ∈ s.freelist, Frame img v) (hn : n.toInt < 0) :
    SbrkExact img p n s ↔ 0 < (p.sz.toNat : Int) + n.toInt ∨
      ((p.sz.toNat : Int) + n.toInt = 0 ∧ p.sz.toNat ≤ 4096) := by
  have hsz := h.sz
  have hgap := h.gap
  have htop := h.top
  obtain ⟨d, hd, -⟩ := h.layout
  have hint := BitVec.toInt_eq_toNat_cond n
  have hlt := n.isLt
  have hsum := BitVec.toNat_add p.sz n
  have hzero : (0 : Word).toNat = 0 := rfl
  have hne : p.sz ≠ 0 := by
    rw [ne_eq, ← BitVec.toNat_inj]
    omega
  obtain ⟨r, t, hr, hin⟩ := h.deallocuvm hd (p.sz + n) hf
  have hexact : SbrkExact img p n s ↔ Sbrk p n
      (if r.2 = 0 then ({ p with pgdir := some r.1 }, -1)
        else ({ p with pgdir := some r.1, sz := r.2 }, 0)) := by
    unfold SbrkExact growproc
    rw [hd]
    dsimp only
    rw [if_neg (Int.not_lt.mpr (Int.le_of_lt hn)), if_pos hn, wp.bind, wp.run hr]
    split <;> exact wp.pure
  rw [hexact]
  rcases Int.lt_trichotomy (p.sz.toNat + n.toInt) 0 with hlow | hall | hpos
  · -- the sum wraps, and the size is taken for one that is large enough
    have hlarge : p.sz.toNat ≤ (p.sz + n).toNat := by omega
    obtain rfl : r = (d, p.sz) := by
      rcases hin with ⟨-, he⟩ | ⟨hlt', -⟩
      · exact he
      · exact absurd hlarge (Nat.not_le.mpr hlt')
    rw [if_neg hne]
    refine iff_of_false (fun hc => ?_) (by omega)
    have := (hc.done rfl).1
    dsimp only at this
    omega
  · have hsize : p.sz + n = 0 := by
      rw [← BitVec.toNat_inj]
      omega
    rw [hsize] at hin
    obtain ⟨hret, hs⟩ : r.2 = 0 ∧ Shrunk p d r.1 0 := by
      rcases hin with ⟨hle, -⟩ | ⟨-, he⟩
      · exact absurd (BitVec.le_zero_iff.mp hle) hne
      · exact he
    rw [if_pos hret]
    refine Iff.trans (b := p.sz.toNat ≤ 4096) ?_ (by omega)
    rw [← hs.same_iff h hd]
    refine ⟨fun hc => ?_, .failing hd⟩
    obtain ⟨-, d₁, d₂, hd₁, hd₂, he⟩ := hc.failed rfl
    obtain rfl : d = d₁ := Option.some.inj (hd.symm.trans hd₁)
    obtain rfl : r.1 = d₂ := Option.some.inj hd₂
    exact he
  · have hnew : ((p.sz + n).toNat : Int) = p.sz.toNat + n.toInt := by omega
    have hlt' : (p.sz + n).toNat < p.sz.toNat := by omega
    obtain ⟨hret, hs⟩ : r.2 = p.sz + n ∧ Shrunk p d r.1 (p.sz + n).toNat := by
      rcases hin with ⟨hle, -⟩ | ⟨-, he⟩
      · exact absurd hlt' (Nat.not_lt.mpr hle)
      · exact he
    have hne' : ¬ p.sz + n = 0 := by
      rw [← BitVec.toNat_inj]
      omega
    rw [hret, if_neg hne']
    exact iff_of_true (.exact hnew fun va => hs.mapped_iff h hd (Nat.le_of_lt hlt')) (.inl hpos)

/-- `growproc` keeps its promise exactly where the new size is positive, or is
0 and there was no heap above page 0. -/
theorem sbrk_exact_iff (h : LaidOut img p) (hf : ∀ v ∈ s.freelist, Frame img v) (n : Word) :
    SbrkExact img p n s ↔ 0 < (p.sz.toNat : Int) + n.toInt ∨
      ((p.sz.toNat : Int) + n.toInt = 0 ∧ p.sz.toNat ≤ 4096) := by
  have hsz := h.sz
  rcases Int.lt_trichotomy n.toInt 0 with hneg | hzero | hpos
  · exact sbrk_shrink h hf hneg
  · obtain ⟨d, hd, -⟩ := h.layout
    refine iff_of_true ?_ (.inl (by omega))
    unfold SbrkExact growproc
    rw [hd]
    dsimp only
    rw [if_neg (by omega), if_neg (by omega), wp.pure]
    have hsame : (p, (0 : Int)) = ({ p with pgdir := some d, sz := p.sz }, 0) := by rw [← hd]
    rw [hsame]
    exact .exact (by omega) fun va hva => h.heap hd hva
  · exact iff_of_true (sbrk_grow h hf hpos) (.inl (by omega))

theorem userPages_page (m : Nat) : UserPages 8192 0x9F000 m ↔
    4096 ≤ m ∧ m < 8192 ∨ 0x9F000 ≤ m ∧ m < 0xA0000 := by
  rw [UserPages, (by decide : pageUp 8192 = 8192)]
  rfl

/-- An empty address space given one page of heap and one of stack. -/
theorem Layout.userPages (h : Layout img d fun _ => False) (hv : Frame img v) (hw : Frame img w) :
    Layout img ((d.setPte 4096 (v ||| (PTE_W ||| PTE_U) ||| PTE_P)).setPte 0x9F000
      (w ||| (PTE_W ||| PTE_U) ||| PTE_P)) (UserPages 8192 0x9F000) := by
  have hset := (h.setPte (a := 4096) (by decide) hv).setPte (a := 0x9F000) (by decide) hw
  refine hset.congr fun m _ => ?_
  have hpage : (4096 : Word).toNat = 4096 := rfl
  have htop : (0x9F000 : Word).toNat = 0x9F000 := rfl
  rw [hpage, htop, userPages_page, false_or]
  omega

theorem exists_userPages : ∃ d, Layout smallImage d (UserPages 8192 0x9F000) := by
  have hs : Pool smallImage True (0 + 13) ample := ample_pool.mono (by omega)
  obtain ⟨o, s', -, -, hnone, hsome⟩ := setupkvm_wp hs
  cases o with
  | none => exact absurd trivial (hnone rfl)
  | some d =>
    have hheap : Frame smallImage 0x110000 := ⟨by decide, by decide, by decide, by decide⟩
    have hstack : Frame smallImage 0x111000 := ⟨by decide, by decide, by decide, by decide⟩
    exact ⟨_, (hsome d rfl).userPages hheap hstack⟩

/-- A process in such an address space. -/
def onePage (d : Pgdir) : Proc :=
  ⟨8192, 0x9F000, some d, 0x200000, .running, 2, none, ⟨0, 0, 0⟩, false, fun _ => none, 0, "sh"⟩

theorem laidOut_onePage (h : Layout smallImage d (UserPages 8192 0x9F000)) :
    LaidOut smallImage (onePage d) where
  sz := (by decide : 0 < (8192 : Word).toNat)
  gap := (by decide : (8192 : Word).toNat + 4096 ≤ (0x9F000 : Word).toNat)
  top := (by decide : (0x9F000 : Word).toNat ≤ 0xA0000)
  aligned := (by decide : (0x9F000 : Word).toNat % 4096 = 0)
  layout := ⟨d, rfl, h⟩

theorem sbrk_exact_page : ∃ d, SbrkExact smallImage (onePage d) (-4096) ample := by
  obtain ⟨d, hd⟩ := exists_userPages
  exact ⟨d, (sbrk_exact_iff (laidOut_onePage hd) ample_frames _).mpr
    (.inl (by decide : 0 < ((8192 : Word).toNat : Int) + (-4096 : Word).toInt))⟩

/-- Giving up more than there is succeeds and changes nothing. -/
theorem sbrk_below_zero : ∃ d, LaidOut smallImage (onePage d) ∧
    ¬ SbrkExact smallImage (onePage d) (-8193) ample := by
  obtain ⟨d, hd⟩ := exists_userPages
  refine ⟨d, laidOut_onePage hd, fun hc => ?_⟩
  rw [sbrk_shrink (laidOut_onePage hd) ample_frames (by decide)] at hc
  exact absurd hc (by decide : ¬ (0 < ((8192 : Word).toNat : Int) + (-8193 : Word).toInt ∨
    (((8192 : Word).toNat : Int) + (-8193 : Word).toInt = 0 ∧ (8192 : Word).toNat ≤ 4096)))

end PerrOS.Vm
