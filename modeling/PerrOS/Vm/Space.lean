import PerrOS.Lib.Wp
import PerrOS.Vm.Segments

/-!
# What the functions of `vm.c` do to a well-formed address space

Exact results, where `Vm.Segments` has upper bounds: when a function returns
at all, and which pages are then mapped. `enough` stands for a free list that
no one else draws on and that is long enough; without it `kalloc` may fail at
any call.
-/

namespace PerrOS.Vm

open Lib (wp)
open Function (update)

variable {img : Image} {pgdir : Pgdir} {va a last perm pa v limit oldsz newsz : Word}
variable {S T : Nat → Prop} {enough : Prop} {s : Kmem} {k n : Nat}

-- ---------------------------------------------------------------------------
-- The pool of pages
-- ---------------------------------------------------------------------------

/-- The address of a page that `kinit` may have put on the free list. -/
structure Frame (img : Image) (v : Word) : Prop where
  aligned : v.toNat % 4096 = 0
  kend : img.kend ≤ v
  top : v < PHYSTOP
  ne : v ≠ 0

/-- The free list holds pages of physical memory, and at least `k` of them
that `kalloc` will find if there are `enough`. -/
structure Pool (img : Image) (enough : Prop) (k : Nat) (s : Kmem) : Prop where
  frames : ∀ v ∈ s.freelist, Frame img v
  granted : enough → ∀ n, s.grant n = true
  room : enough → k ≤ s.freelist.length

namespace Pool

theorem mono (h : Pool img enough n s) (hk : k ≤ n) : Pool img enough k s :=
  ⟨h.frames, h.granted, fun he => Nat.le_trans hk (h.room he)⟩

theorem setMem (h : Pool img enough k s) (mem : Word → BitVec 8) :
    Pool img enough k { s with mem := mem } := ⟨h.frames, h.granted, h.room⟩

theorem kalloc (h : Pool img enough (k + 1) s) :
    wp kalloc (fun v s' => Pool img enough k s' ∧ (v = 0 → ¬ enough) ∧ (v ≠ 0 → Frame img v)) s := by
  have failed (he : ¬ enough) {s' : Kmem} (hs : s'.freelist = s.freelist) :
      Pool img enough k s' ∧ ((0 : Word) = 0 → ¬ enough) ∧ ((0 : Word) ≠ 0 → Frame img 0) :=
    ⟨⟨hs ▸ h.frames, fun h => absurd h he, fun h => absurd h he⟩, fun _ => he, fun h => absurd rfl h⟩
  cases hg : s.grant s.calls with
  | false =>
    refine ⟨0, { s with calls := s.calls + 1 }, by simp [Vm.kalloc, hg], failed ?_ rfl⟩
    intro he
    simp [h.granted he] at hg
  | true =>
    cases hf : s.freelist with
    | nil =>
      refine ⟨0, { s with calls := s.calls + 1 }, by simp [Vm.kalloc, hg, hf], failed ?_ rfl⟩
      intro he
      have := h.room he
      simp [hf] at this
    | cons v rest =>
      have hv := h.frames v (by simp [hf])
      refine ⟨v, { s with freelist := rest, calls := s.calls + 1 }, by simp [Vm.kalloc, hg, hf],
        ⟨fun w hw => h.frames w (by simp [hf, hw]), h.granted, fun he => ?_⟩,
        fun h0 => absurd h0 hv.ne, fun _ => hv⟩
      have hroom := h.room he
      rw [hf, List.length_cons] at hroom
      exact Nat.le_of_succ_le_succ hroom

theorem kfree (h : Pool img enough k s) (hv : Frame img v) :
    wp (kfree img v) (fun _ => Pool img enough k) s := by
  have hmod : v % PGSIZE = 0 := BitVec.eq_of_toNat_eq (by
    rw [BitVec.toNat_umod]
    exact hv.aligned)
  have hend : ¬ v < img.kend := BitVec.not_lt.mpr hv.kend
  have htop : ¬ PHYSTOP ≤ v := BitVec.not_le.mpr hv.top
  unfold Vm.kfree
  rw [if_neg (by simp [hmod, hend, htop]), wp.bind, memset, wp.modify, wp.modify]
  refine ⟨?_, h.granted, fun he => ?_⟩
  · intro w hw
    rcases List.mem_cons.mp hw with rfl | hw
    · exact hv
    · exact h.frames w hw
  · exact Nat.le_succ_of_le (h.room he)

end Pool

-- ---------------------------------------------------------------------------
-- Page-table entries
-- ---------------------------------------------------------------------------

theorem PGROUNDDOWN_of_aligned (ha : a.toNat % 4096 = 0) : PGROUNDDOWN a = a := by
  apply BitVec.eq_of_toNat_eq
  rw [toNat_PGROUNDDOWN]
  unfold pageDown
  omega

/-- The address of a page has none of the flags' bits. -/
theorem entry_and (ha : pa.toNat % 4096 = 0) (flags : Word) {mask : Word}
    (hm : mask &&& ~~~0xFFF = 0) : (pa ||| flags) &&& mask = flags &&& mask := by
  have hpa : pa &&& ~~~0xFFF = pa := PGROUNDDOWN_of_aligned ha
  have hzero : pa &&& mask = 0 := by
    rw [← hpa, BitVec.and_assoc, BitVec.and_comm (~~~0xFFF) mask, hm]
    exact BitVec.and_zero
  rw [BitVec.and_or_distrib_right, hzero]
  exact BitVec.zero_or

theorem PTE_ADDR_entry (ha : pa.toNat % 4096 = 0) {flags : Word} (hf : flags &&& ~~~0xFFF = 0) :
    PTE_ADDR (pa ||| flags) = pa := by
  have hpa : pa &&& ~~~0xFFF = pa := PGROUNDDOWN_of_aligned ha
  rw [PTE_ADDR, BitVec.and_or_distrib_right, hpa, hf]
  exact BitVec.or_zero

/-- The entry of a page that user code may use. -/
structure UserPage (img : Image) (pte : Word) : Prop where
  present : present pte
  user : pte &&& PTE_U ≠ 0
  frame : Frame img (PTE_ADDR pte)

theorem Frame.PTE_ADDR_entry (h : Frame img v) :
    PTE_ADDR (v ||| (PTE_W ||| PTE_U) ||| PTE_P) = v := by
  rw [BitVec.or_assoc]
  exact Vm.PTE_ADDR_entry h.aligned (by decide)

theorem Frame.userPage (h : Frame img v) : UserPage img (v ||| (PTE_W ||| PTE_U) ||| PTE_P) := by
  refine ⟨?_, ?_, ?_⟩
  · rw [BitVec.or_assoc, Vm.present, entry_and h.aligned _ (by decide)]
    decide
  · rw [BitVec.or_assoc, entry_and h.aligned _ (by decide)]
    decide
  · rwa [h.PTE_ADDR_entry]

-- ---------------------------------------------------------------------------
-- Freeing
-- ---------------------------------------------------------------------------

/-- Every page that `freevm(pgdir)` frees came from the free list. -/
structure Freeable (img : Image) (pgdir : Pgdir) : Prop where
  frame : Frame img pgdir.frame
  tables : ∀ i pgtab, pgdir.pde i = some pgtab → Frame img pgtab.frame
  pages : ∀ va pte, va.toNat < 0xA0000 → pgdir.pte va = some pte → present pte →
    Frame img (PTE_ADDR pte)

/-- Writing an entry keeps the tables where they are. -/
theorem Pgdir.setPte_frame : (pgdir.setPte va pa).frame = pgdir.frame := by
  unfold setPte
  split <;> rfl

theorem Pgdir.setPte_pde {i : BitVec 10} {pgtab : Ptab}
    (h : (pgdir.setPte va pa).pde i = some pgtab) :
    ∃ old, pgdir.pde i = some old ∧ old.frame = pgtab.frame := by
  unfold setPte at h
  split at h
  · next old hold =>
    dsimp only at h
    by_cases hi : i = PDX va
    · subst hi
      rw [Function.update_self] at h
      exact ⟨old, hold, by rw [← Option.some.inj h]⟩
    · rw [Function.update_of_ne hi] at h
      exact ⟨pgtab, h, rfl⟩
  · exact ⟨pgtab, h, rfl⟩

theorem Pgdir.isSome_setPte {i : BitVec 10} :
    ((pgdir.setPte va pa).pde i).isSome = (pgdir.pde i).isSome := by
  unfold setPte
  split
  · next old hold =>
    dsimp only
    by_cases hi : i = PDX va
    · subst hi
      rw [hold, Function.update_self]
      rfl
    · rw [Function.update_of_ne hi]
  · rfl

namespace Freeable

theorem clear (h : Freeable img pgdir) (hp : pgdir.pte va = some pa) :
    Freeable img (pgdir.setPte va 0) := by
  refine ⟨?_, fun i pgtab hi => ?_, fun b pte hb hpte hpres => ?_⟩
  · rw [Pgdir.setPte_frame]
    exact h.frame
  · obtain ⟨old, hold, hframe⟩ := Pgdir.setPte_pde hi
    exact hframe ▸ h.tables i old hold
  · by_cases he : va.toNat / 4096 = b.toNat / 4096
    · rw [← Pgdir.pte_congr he, Pgdir.pte_setPte_self hp] at hpte
      obtain rfl := Option.some.inj hpte
      simp [present] at hpres
    · exact h.pages b pte hb (by rwa [Pgdir.pte_setPte_of_ne he] at hpte) hpres

theorem deallocLoop {as : List Word} (h : Freeable img pgdir)
    (has : ∀ a ∈ as, a.toNat < 0xA0000) (hs : Pool img enough k s) :
    wp (deallocLoop img pgdir as)
      (fun d s' => Freeable img d ∧ Pool img enough k s') s := by
  induction as generalizing pgdir s with
  | nil => exact wp.pure.mpr ⟨h, hs⟩
  | cons a as ih =>
    obtain ⟨ha, has⟩ := List.forall_mem_cons.mp has
    unfold Vm.deallocLoop
    split
    · next pte hpte =>
      split
      · next hpres =>
        have hf := h.pages a pte ha hpte hpres
        rw [if_neg hf.ne]
        exact wp.seq (hs.kfree hf) fun _ s' hs' => ih (h.clear hpte) has hs'
      · exact ih h has hs
    · exact ih h has hs

end Freeable

theorem pages_total (hl : limit.toNat + 4096 ≤ 2 ^ 32) (n : Nat) (a : Word)
    (hn : limit.toNat ≤ a.toNat + n * 4096) : ∃ as, pages limit n a = some as := by
  induction n generalizing a with
  | zero =>
    have ha : ¬ a < limit := by
      rw [BitVec.lt_def]
      omega
    exact ⟨[], by rw [pages, if_neg ha]⟩
  | succ n ih =>
    by_cases ha : a < limit
    · have hnext := toNat_next hl ha
      obtain ⟨as, has⟩ := ih (a + PGSIZE) (by rw [hnext]; omega)
      exact ⟨a :: as, by rw [pages, if_pos ha, has, Option.map_some]⟩
    · exact ⟨[], by rw [pages, if_neg ha]⟩

/-- The addresses of a loop over user pages. -/
theorem pages_user (hl : limit.toNat ≤ 0xA0000) (a : Word) :
    ∃ as, pages limit NPAGES a = some as := by
  have hn : limit.toNat ≤ NPAGES * 4096 := Nat.le_trans hl (by decide)
  exact pages_total (by omega) NPAGES a (Nat.le_trans hn (Nat.le_add_left ..))

namespace Freeable

theorem deallocuvm (h : Freeable img pgdir) (hl : oldsz.toNat ≤ 0xA0000)
    (hs : Pool img enough k s) :
    wp (deallocuvm img pgdir oldsz newsz)
      (fun r s' => Freeable img r.1 ∧ Pool img enough k s') s := by
  unfold Vm.deallocuvm
  split
  · exact wp.pure.mpr ⟨h, hs⟩
  obtain ⟨as, has⟩ := pages_user hl (PGROUNDUP newsz)
  refine wp.bind.mpr ((wp.lift has).mpr (wp.seq (h.deallocLoop (fun a ha => ?_) hs) ?_))
  · have := ((mem_pages (by omega) has).mp ha).1.2
    omega
  · exact fun d s' hd => wp.pure.mpr hd

theorem freeTables {is : List (BitVec 10)} (h : Freeable img pgdir) (hs : Pool img enough k s) :
    wp (freeTables img pgdir is) (fun _ => Pool img enough k) s := by
  induction is generalizing s with
  | nil => exact wp.pure.mpr hs
  | cons i is ih =>
    unfold Vm.freeTables
    split
    · next pgtab hi => exact wp.seq (hs.kfree (h.tables i pgtab hi)) fun _ s' hs' => ih hs'
    · exact ih hs

/-- `freevm` does not panic. -/
theorem freevm (h : Freeable img pgdir) (hs : Pool img enough k s) :
    wp (freevm img pgdir) (fun _ => Pool img enough k) s := by
  unfold Vm.freevm
  refine wp.seq (h.deallocuvm (Nat.le_refl _) hs) fun r s' hr => ?_
  exact wp.seq (hr.1.freeTables hr.2) fun _ s' hs' => hs'.kfree h.frame

end Freeable

-- ---------------------------------------------------------------------------
-- Mapping a page of the user's
-- ---------------------------------------------------------------------------

/-- `i` is the index of a table for kernel addresses; the first one also
serves all of the user's. -/
def KernelTable (i : BitVec 10) : Prop := i.toNat < 4 ∨ 1016 ≤ i.toNat

instance : DecidablePred KernelTable := fun i =>
  inferInstanceAs (Decidable (i.toNat < 4 ∨ 1016 ≤ i.toNat))

theorem toNat_PDX (va : Word) : (PDX va).toNat = va.toNat / 2 ^ 22 := by
  have := va.isLt
  rw [PDX, BitVec.toNat_setWidth, BitVec.toNat_ushiftRight, Nat.shiftRight_eq_div_pow]
  omega

theorem kernelTable_PDX : KernelTable (PDX va) ↔ va.toNat < 0x1000000 ∨ 0xFE000000 ≤ va.toNat := by
  have := va.isLt
  rw [KernelTable, toNat_PDX]
  omega

/-- An address space with the kernel's mappings, whose user pages are those
that `S` names. -/
structure Layout (img : Image) (pgdir : Pgdir) (S : Nat → Prop) : Prop where
  frame : Frame img pgdir.frame
  tables : ∀ i pgtab, pgdir.pde i = some pgtab → Frame img pgtab.frame
  isSome : ∀ i, (pgdir.pde i).isSome ↔ KernelTable i
  kernel : ∀ va pte, 0xA0000 ≤ va.toNat → pgdir.pte va = some pte → pte &&& PTE_U = 0
  mapped : ∀ va pte, va.toNat < 0xA0000 → S va.toNat → pgdir.pte va = some pte → UserPage img pte
  absent : ∀ va pte, va.toNat < 0xA0000 → ¬ S va.toNat → pgdir.pte va = some pte → pte = 0

theorem Pgdir.isSome_pte : (pgdir.pte va).isSome = (pgdir.pde (PDX va)).isSome :=
  Option.isSome_map

namespace Layout

theorem pte_isSome (h : Layout img pgdir S) :
    (pgdir.pte va).isSome ↔ va.toNat < 0x1000000 ∨ 0xFE000000 ≤ va.toNat := by
  rw [Pgdir.isSome_pte, h.isSome, kernelTable_PDX]

/-- A user address has an entry. -/
theorem user_pte (h : Layout img pgdir S) (ha : a.toNat < 0xA0000) :
    ∃ pte, pgdir.pte a = some pte :=
  Option.isSome_iff_exists.mp (h.pte_isSome.mpr (by omega))

theorem congr (h : Layout img pgdir S) (hST : ∀ n, n < 0xA0000 → (S n ↔ T n)) :
    Layout img pgdir T where
  frame := h.frame
  tables := h.tables
  isSome := h.isSome
  kernel := h.kernel
  mapped va pte hva ht := h.mapped va pte hva ((hST _ hva).mpr ht)
  absent va pte hva ht := h.absent va pte hva fun hs => ht ((hST _ hva).mp hs)

theorem freeable (h : Layout img pgdir S) : Freeable img pgdir := by
  refine ⟨h.frame, h.tables, fun va pte hva hpte hpres => ?_⟩
  by_cases hs : S va.toNat
  · exact (h.mapped va pte hva hs hpte).frame
  · obtain rfl := h.absent va pte hva hs hpte
    simp [present] at hpres

theorem setPte (h : Layout img pgdir S) (hlt : a.toNat < 0xA0000) (hv : Frame img v) :
    Layout img (pgdir.setPte a (v ||| (PTE_W ||| PTE_U) ||| PTE_P)) fun n =>
      S n ∨ n / 4096 = a.toNat / 4096 := by
  obtain ⟨old, hold⟩ := h.user_pte hlt
  have cases_pte {b pte}
      (hb : (pgdir.setPte a (v ||| (PTE_W ||| PTE_U) ||| PTE_P)).pte b = some pte) :
      (b.toNat / 4096 = a.toNat / 4096 ∧ UserPage img pte) ∨
      (b.toNat / 4096 ≠ a.toNat / 4096 ∧ pgdir.pte b = some pte) := by
    by_cases he : a.toNat / 4096 = b.toNat / 4096
    · rw [← Pgdir.pte_congr he, Pgdir.pte_setPte_self hold] at hb
      exact .inl ⟨he.symm, Option.some.inj hb ▸ hv.userPage⟩
    · exact .inr ⟨Ne.symm he, by rwa [Pgdir.pte_setPte_of_ne he] at hb⟩
  constructor
  · rw [Pgdir.setPte_frame]
    exact h.frame
  · intro i pgtab hi
    obtain ⟨t, ht, hframe⟩ := Pgdir.setPte_pde hi
    exact hframe ▸ h.tables i t ht
  · intro i
    rw [Pgdir.isSome_setPte, h.isSome]
  · intro b pte hb hpte
    rcases cases_pte hpte with ⟨he, -⟩ | ⟨-, hpte⟩
    · omega
    · exact h.kernel b pte hb hpte
  · intro b pte hb hs hpte
    rcases cases_pte hpte with ⟨-, hpage⟩ | ⟨hne, hpte⟩
    · exact hpage
    · exact h.mapped b pte hb (hs.resolve_right hne) hpte
  · intro b pte hb hs hpte
    rcases cases_pte hpte with ⟨he, -⟩ | ⟨-, hpte⟩
    · exact absurd (.inr he) hs
    · exact h.absent b pte hb (fun h => hs (.inl h)) hpte

end Layout

/-- One page is mapped unless it already is. -/
theorem mappages_page (ha : a.toNat % 4096 = 0) (hlt : a.toNat < 0xA0000)
    {pte : Word} (hpte : pgdir.pte a = some pte) :
    mappages pgdir a PGSIZE pa perm =
      if present pte then panic else pure (pgdir.setPte a (pa ||| perm ||| PTE_P), 0) := by
  have hlast : PGROUNDDOWN (a + PGSIZE - 1) = a := by
    apply BitVec.eq_of_toNat_eq
    rw [toNat_PGROUNDDOWN, show (a + PGSIZE - 1).toNat = a.toNat + 4095 by unfold PGSIZE; bv_omega]
    unfold pageDown
    omega
  obtain ⟨n, hn⟩ : ∃ n, NPAGES = n + 1 := ⟨2 ^ 20 - 1, rfl⟩
  have hwalk : walkpgdir pgdir a = pure (pgdir, true) := by
    unfold walkpgdir
    split
    · rfl
    · next hnone => simp [Pgdir.pte, hnone] at hpte
  rw [mappages, hlast, PGROUNDDOWN_of_aligned ha, hn, mapLoop, hwalk]
  simp only [pure_bind, hpte, Option.any_some, Bool.true_eq_false, if_false, if_true]

/-- Entries in use stay as they are. -/
def Extends (d pgdir : Pgdir) : Prop :=
  ∀ va pte, pgdir.pte va = some pte → present pte → d.pte va = some pte

theorem Extends.refl (pgdir : Pgdir) : Extends pgdir pgdir := fun _ _ h _ => h

theorem Extends.trans {d d' : Pgdir} (h : Extends d' d) (h' : Extends d pgdir) :
    Extends d' pgdir := fun va pte hpte hpres => h va pte (h' va pte hpte hpres) hpres

theorem Extends.setPte {pte : Word} (hpte : pgdir.pte a = some pte) (hpres : present pte = false) :
    Extends (pgdir.setPte a pa) pgdir := by
  intro b q hq hqpres
  by_cases he : a.toNat / 4096 = b.toNat / 4096
  · rw [← Pgdir.pte_congr he, hpte] at hq
    obtain rfl := Option.some.inj hq
    rw [hpres] at hqpres
    cases hqpres
  · rwa [Pgdir.pte_setPte_of_ne he]

-- ---------------------------------------------------------------------------
-- Growing
-- ---------------------------------------------------------------------------

namespace Layout

/-- The loop of `allocuvm` over unmapped pages. -/
theorem allocLoop (hnew : newsz.toNat ≤ 0xA0000) {as : List Word} (has : pages newsz n a = some as)
    (ha : a.toNat % 4096 = 0) (h : Layout img pgdir S)
    (hfresh : ∀ m, Range a.toNat (pageUp newsz.toNat) m → ¬ S m)
    (hs : Pool img enough (k + (pageUp newsz.toNat - a.toNat) / 4096) s) :
    wp (allocLoop img oldsz newsz pgdir as) (fun r s' => Pool img enough k s' ∧
      ((r.2 = 0 ∧ ¬ enough ∧ Freeable img r.1) ∨
       (r.2 = newsz ∧ Extends r.1 pgdir ∧
        Layout img r.1 fun m => S m ∨ Range a.toNat (pageUp newsz.toNat) m))) s := by
  have done {a : Word} {d : Pgdir} {S : Nat → Prop} (ha : ¬ a < newsz) (hal : a.toNat % 4096 = 0)
      (h : Layout img d S) :
      Layout img d fun m => S m ∨ Range a.toNat (pageUp newsz.toNat) m := by
    have ha : newsz.toNat ≤ a.toNat := Nat.not_lt.mp ha
    refine h.congr fun m _ => ⟨.inl, fun hm => hm.resolve_right fun hr => ?_⟩
    unfold Range pageUp at hr
    omega
  induction n generalizing a as pgdir S s with
  | zero =>
    unfold pages at has
    split at has
    · cases has
    · next hlt =>
      cases has
      exact wp.pure.mpr ⟨hs.mono (by omega), .inr ⟨rfl, .refl _, done hlt ha h⟩⟩
  | succ n ih =>
    unfold pages at has
    split at has
    · next hlt =>
      obtain ⟨as', has', rfl⟩ := Option.map_eq_some_iff.mp has
      have hnext := toNat_next (by omega) hlt
      have hlt : a.toNat < newsz.toNat := hlt
      have hcount : (pageUp newsz.toNat - a.toNat) / 4096 =
          (pageUp newsz.toNat - (a + PGSIZE).toNat) / 4096 + 1 := by
        unfold pageUp
        omega
      rw [hcount, ← Nat.add_assoc] at hs
      refine wp.seq hs.kalloc fun v s' hv => ?_
      obtain ⟨hs', hnone, hframe⟩ := hv
      split
      · next hz =>
        refine wp.seq (h.freeable.deallocuvm hnew hs') fun r t hr => wp.pure.mpr ?_
        exact ⟨hr.2.mono (by omega), .inl ⟨rfl, hnone hz, hr.1⟩⟩
      · next hz =>
        have hv := hframe hz
        obtain ⟨pte, hpte⟩ := h.user_pte (a := a) (by omega)
        have hfree : ¬ S a.toNat := by
          refine hfresh _ ?_
          unfold Range pageUp
          omega
        obtain rfl := h.absent a pte (by omega) hfree hpte
        rw [mappages_page ha (by omega) hpte, if_neg (by simp [present]), wp.bind, memset,
          wp.modify, pure_bind]
        refine (ih has' (by omega) (h.setPte (by omega) hv) ?_ (hs'.setMem _)).mono ?_
        · rintro m hm (hSm | hpage)
          · refine hfresh m ?_ hSm
            unfold Range at hm ⊢
            omega
          · unfold Range at hm
            omega
        · rintro r t ⟨ht, ⟨hr, hne, hf⟩ | ⟨hr, hext, hl⟩⟩
          · exact ⟨ht, .inl ⟨hr, hne, hf⟩⟩
          · refine ⟨ht, .inr ⟨hr, hext.trans (.setPte hpte (by simp [present])), ?_⟩⟩
            refine hl.congr fun m _ => ?_
            rw [or_assoc]
            refine or_congr_right ?_
            unfold Range pageUp
            omega
    · next hlt =>
      cases has
      exact wp.pure.mpr ⟨hs.mono (by omega), .inr ⟨rfl, .refl _, done hlt ha h⟩⟩

end Layout

/-- The size that `allocuvm` reaches if it does not fail. -/
def grow (oldsz newsz : Word) : Word := if newsz < oldsz then oldsz else newsz

theorem toNat_grow (oldsz newsz : Word) : (grow oldsz newsz).toNat = max oldsz.toNat newsz.toNat := by
  unfold grow
  split
  · next h =>
    have h : newsz.toNat < oldsz.toNat := h
    omega
  · next h =>
    have h : ¬ newsz.toNat < oldsz.toNat := h
    omega

/-- `allocuvm` on pages that are not mapped fails only for a size beyond
`USERTOP` or for want of memory. -/
theorem Layout.allocuvm (h : Layout img pgdir S) (hold : oldsz.toNat ≤ 0xA0000)
    (hfresh : ∀ m, Range (pageUp oldsz.toNat) (pageUp newsz.toNat) m → ¬ S m)
    (hs : Pool img enough (k + (pageUp newsz.toNat - pageUp oldsz.toNat) / 4096) s) :
    wp (allocuvm img pgdir oldsz newsz) (fun r s' => Pool img enough k s' ∧
      ((r.2 = 0 ∧ (newsz ≤ USERTOP → ¬ enough) ∧ Freeable img r.1) ∨
       (newsz ≤ USERTOP ∧ r.2 = grow oldsz newsz ∧ Extends r.1 pgdir ∧
        Layout img r.1 fun m => S m ∨ Range (pageUp oldsz.toNat) (pageUp newsz.toNat) m))) s := by
  unfold Vm.allocuvm
  split
  · next htop =>
    exact wp.pure.mpr ⟨hs.mono (by omega), .inl
      ⟨rfl, fun hle => absurd htop (BitVec.not_lt.mpr hle), h.freeable⟩⟩
  next htop =>
  have htop := BitVec.not_lt.mp htop
  have hnew : newsz.toNat ≤ 0xA0000 := htop
  split
  · next hlt =>
    refine wp.pure.mpr ⟨hs.mono (by omega), .inr ⟨htop, by rw [grow, if_pos hlt], .refl _, ?_⟩⟩
    have hlt : newsz.toNat < oldsz.toNat := hlt
    refine h.congr fun m _ => ⟨.inl, fun hm => hm.resolve_right fun hr => ?_⟩
    unfold Range pageUp at hr
    omega
  next hle =>
  have hup : (PGROUNDUP oldsz).toNat = pageUp oldsz.toNat := toNat_PGROUNDUP (by omega)
  obtain ⟨as, has⟩ := pages_user hnew (PGROUNDUP oldsz)
  refine wp.bind.mpr ((wp.lift has).mpr ?_)
  have hal : (PGROUNDUP oldsz).toNat % 4096 = 0 := by
    rw [hup]
    exact Nat.mul_mod_left ..
  refine (h.allocLoop hnew has hal (by rwa [hup]) (by rwa [hup])).mono ?_
  rw [hup]
  rintro r s' ⟨hs', ⟨hr, hne, hf⟩ | ⟨hr, hext, hl⟩⟩
  · exact ⟨hs', .inl ⟨hr, fun _ => hne, hf⟩⟩
  · exact ⟨hs', .inr ⟨htop, by rw [hr, grow, if_neg hle], hext, hl⟩⟩

/-- With a page at hand, `allocuvm` panics on a range that starts with a mapped
page. -/
theorem Layout.allocuvm_remap (h : Layout img pgdir S) (hal : oldsz.toNat % 4096 = 0)
    (hlt : oldsz < newsz) (htop : newsz ≤ USERTOP) (hS : S oldsz.toNat) (he : enough)
    (hs : Pool img enough (k + 1) s) {Q : Pgdir × Word → Kmem → Prop} :
    ¬ wp (Vm.allocuvm img pgdir oldsz newsz) Q s := by
  have hlt' : oldsz.toNat < newsz.toNat := hlt
  have hnew : newsz.toNat ≤ 0xA0000 := htop
  have hup : PGROUNDUP oldsz = oldsz := by
    apply BitVec.eq_of_toNat_eq
    rw [toNat_PGROUNDUP (by omega)]
    unfold pageUp
    omega
  obtain ⟨as, has⟩ := pages_user hnew oldsz
  obtain ⟨n, hn⟩ : ∃ n, NPAGES = n + 1 := ⟨2 ^ 20 - 1, rfl⟩
  have hcons := has
  rw [hn, pages, if_pos hlt] at hcons
  obtain ⟨as', -, rfl⟩ := Option.map_eq_some_iff.mp hcons
  obtain ⟨pte, hpte⟩ := h.user_pte (a := oldsz) (by omega)
  have hpres := (h.mapped oldsz pte (by omega) hS hpte).present
  unfold Vm.allocuvm
  rw [if_neg (BitVec.not_lt.mpr htop), if_neg (BitVec.not_lt.mpr (BitVec.le_of_lt hlt)), hup]
  intro hw
  rw [wp.bind, wp.lift has, Vm.allocLoop] at hw
  obtain ⟨v, s', ⟨-, hv, -⟩, hw⟩ := wp.of_bind hw hs.kalloc
  rw [if_neg fun hz => hv hz he, mappages_page hal (by omega) hpte, if_pos hpres, wp.bind, memset,
    wp.modify, wp.bind] at hw
  exact wp.failure hw

-- ---------------------------------------------------------------------------
-- The kernel's mappings
-- ---------------------------------------------------------------------------

def kernelTables : List (BitVec 10) :=
  (List.range 4 ++ List.range' 1016 8).map (BitVec.ofNat 10)

/-- The tables of the kernel's that are still to be allocated. -/
def missing (pgdir : Pgdir) : Nat := kernelTables.countP fun i => (pgdir.pde i).isNone

theorem mem_kernelTables : ∀ i, KernelTable i → i ∈ kernelTables := by decide +kernel

theorem missing_addPtab (h : KernelTable (PDX va)) (hnone : pgdir.pde (PDX va) = none)
    (frame : Word) : missing (pgdir.addPtab va frame) + 1 = missing pgdir := by
  have step {is : List (BitVec 10)} (hn : is.Nodup) :
      is.countP (fun i => ((pgdir.addPtab va frame).pde i).isNone) +
        (if PDX va ∈ is then 1 else 0) = is.countP fun i => (pgdir.pde i).isNone := by
    induction is with
    | nil => simp
    | cons i is ih =>
      obtain ⟨hnot, hn⟩ := List.nodup_cons.mp hn
      have ih := ih hn
      rw [List.countP_cons, List.countP_cons]
      by_cases hi : i = PDX va
      · subst hi
        have hpde : (pgdir.addPtab va frame).pde (PDX va) = some ⟨frame, fun _ => 0⟩ :=
          Function.update_self ..
        rw [if_neg hnot] at ih
        simp only [hpde, hnone, Option.isNone_some, Option.isNone_none, List.mem_cons, true_or,
          if_true, Bool.false_eq_true, if_false]
        omega
      · have hpde : (pgdir.addPtab va frame).pde i = pgdir.pde i := Function.update_of_ne hi ..
        simp only [hpde, List.mem_cons, Ne.symm hi, false_or]
        omega
  have := step (by decide : kernelTables.Nodup)
  rwa [if_pos (mem_kernelTables _ h)] at this

/-- A page directory while `setupkvm` fills it: nothing from `a` on is mapped. -/
structure Partial (img : Image) (pgdir : Pgdir) (a : Nat) : Prop where
  frame : Frame img pgdir.frame
  tables : ∀ i pgtab, pgdir.pde i = some pgtab → Frame img pgtab.frame ∧ KernelTable i
  kernel : ∀ va pte, pgdir.pte va = some pte → pte &&& PTE_U = 0
  user : ∀ va pte, va.toNat < 0xA0000 → pgdir.pte va = some pte → pte = 0
  above : ∀ va pte, a ≤ va.toNat → pgdir.pte va = some pte → present pte = false

/-- No table is lost. -/
def Keeps (d pgdir : Pgdir) : Prop := ∀ i, (pgdir.pde i).isSome → (d.pde i).isSome

namespace Partial

theorem mono (h : Partial img pgdir n) (hk : n ≤ k) : Partial img pgdir k :=
  ⟨h.frame, h.tables, h.kernel, h.user, fun va pte hva => h.above va pte (Nat.le_trans hk hva)⟩

theorem addPtab (h : Partial img pgdir n) (ht : KernelTable (PDX va)) (hv : Frame img v) :
    Partial img (pgdir.addPtab va v) n := by
  have entry {b pte} (hb : (pgdir.addPtab va v).pte b = some pte) :
      pte = 0 ∨ pgdir.pte b = some pte := by
    by_cases hd : PDX b = PDX va
    · left
      have hb : some 0 = some pte := by
        simpa [Pgdir.pte, Pgdir.addPtab, hd] using hb
      exact (Option.some.inj hb).symm
    · right
      simpa [Pgdir.pte, Pgdir.addPtab, Function.update_of_ne hd] using hb
  refine ⟨h.frame, fun i pgtab hi => ?_, fun b pte hb => ?_, fun b pte hlt hb => ?_,
    fun b pte hle hb => ?_⟩
  · unfold Pgdir.addPtab at hi
    dsimp only at hi
    by_cases hd : i = PDX va
    · subst hd
      rw [Function.update_self] at hi
      obtain rfl := Option.some.inj hi
      exact ⟨hv, ht⟩
    · rw [Function.update_of_ne hd] at hi
      exact h.tables i pgtab hi
  · rcases entry hb with rfl | hb
    · exact BitVec.zero_and
    · exact h.kernel b pte hb
  · rcases entry hb with rfl | hb
    · rfl
    · exact h.user b pte hlt hb
  · rcases entry hb with rfl | hb
    · simp [present]
    · exact h.above b pte hle hb

theorem setPte (h : Partial img pgdir a.toNat) (hal : a.toNat % 4096 = 0) (ha : Above a.toNat)
    {pte : Word} (hold : pgdir.pte a = some pte) (hpa : pa.toNat % 4096 = 0)
    (hperm : perm &&& PTE_U = 0) :
    Partial img (pgdir.setPte a (pa ||| perm ||| PTE_P)) (a.toNat + 4096) := by
  have entry {b q} (hb : (pgdir.setPte a (pa ||| perm ||| PTE_P)).pte b = some q) :
      (b.toNat / 4096 = a.toNat / 4096 ∧ q = pa ||| perm ||| PTE_P) ∨
      (b.toNat / 4096 ≠ a.toNat / 4096 ∧ pgdir.pte b = some q) := by
    by_cases he : a.toNat / 4096 = b.toNat / 4096
    · rw [← Pgdir.pte_congr he, Pgdir.pte_setPte_self hold] at hb
      exact .inl ⟨he.symm, (Option.some.inj hb).symm⟩
    · exact .inr ⟨Ne.symm he, by rwa [Pgdir.pte_setPte_of_ne he] at hb⟩
  refine ⟨?_, fun i pgtab hi => ?_, fun b q hb => ?_, fun b q hlt hb => ?_, fun b q hle hb => ?_⟩
  · rw [Pgdir.setPte_frame]
    exact h.frame
  · obtain ⟨t, ht, hframe⟩ := Pgdir.setPte_pde hi
    exact hframe ▸ h.tables i t ht
  · rcases entry hb with ⟨-, rfl⟩ | ⟨-, hb⟩
    · rw [BitVec.or_assoc, entry_and hpa _ (by decide), BitVec.and_or_distrib_right, hperm]
      decide
    · exact h.kernel b q hb
  · rcases entry hb with ⟨he, -⟩ | ⟨-, hb⟩
    · unfold Above at ha
      omega
    · exact h.user b q hlt hb
  · rcases entry hb with ⟨he, -⟩ | ⟨-, hb⟩
    · omega
    · exact h.above b q (by omega) hb

/-- A table is there afterwards, unless there is no page for it. -/
theorem walkpgdir (h : Partial img pgdir n) (ht : KernelTable (PDX va))
    (hs : Pool img enough (k + missing pgdir) s) :
    wp (walkpgdir pgdir va) (fun r s' => Pool img enough (k + missing r.1) s' ∧
      Partial img r.1 n ∧ Keeps r.1 pgdir ∧ (r.2 = false → ¬ enough) ∧
      (r.2 = true → (r.1.pde (PDX va)).isSome)) s := by
  unfold Vm.walkpgdir
  split
  · next pgtab hp => exact wp.pure.mpr ⟨hs, h, fun _ hi => hi, nofun, fun _ => by rw [hp]; rfl⟩
  · next hp =>
    have hmiss := missing_addPtab ht hp
    refine wp.seq ((hs.mono (by have := hmiss 0; omega)).kalloc
      (k := k + (missing pgdir - 1))) fun v s' hv => ?_
    obtain ⟨hs', hnone, hframe⟩ := hv
    split
    · next hz =>
      have hne := hnone hz
      exact wp.pure.mpr ⟨⟨hs'.frames, fun he => absurd he hne, fun he => absurd he hne⟩, h,
        fun _ hi => hi, fun _ => hne, nofun⟩
    · next hz =>
      rw [wp.bind, memset, wp.modify, wp.pure]
      have hmiss : missing (pgdir.addPtab va v) + 1 = missing pgdir := hmiss v
      refine ⟨(hs'.mono (by dsimp only; omega)).setMem _, h.addPtab ht (hframe hz), ?_, nofun,
        fun _ => ?_⟩
      · intro i hi
        by_cases hd : i = PDX va
        · subst hd
          simp [Pgdir.addPtab]
        · simpa [Pgdir.addPtab, Function.update_of_ne hd] using hi
      · simp [Pgdir.addPtab]

end Partial

/-- A region of the kernel's addresses: whole pages above `USERTOP`, each with
a table, mapped for the kernel alone. -/
structure Region (k : Kmap) : Prop where
  aligned : k.p.toNat % 4096 = 0
  above : Above k.p.toNat
  le : k.p.toNat ≤ (k.e - 1).toNat
  perm : k.perm &&& PTE_U = 0
  tables : ∀ va : Word, Range k.p.toNat (pageDown (k.e - 1).toNat + 4096) va.toNat →
    KernelTable (PDX va)

namespace Partial

/-- The loop of `mappages` does not panic while it maps unmapped pages. -/
theorem mapLoop (h : Partial img pgdir a.toNat) (hal : a.toNat % 4096 = 0) (ha : Above a.toNat)
    (hlast : last.toNat % 4096 = 0) (hle : a.toNat ≤ last.toNat)
    (ht : ∀ va : Word, Range a.toNat (last.toNat + 4096) va.toNat → KernelTable (PDX va))
    (hperm : perm &&& PTE_U = 0) (hpa : pa.toNat % 4096 = 0)
    (hn : (last.toNat - a.toNat) / 4096 < n) (hs : Pool img enough (k + missing pgdir) s) :
    wp (mapLoop last perm n pgdir a pa) (fun r s' => Pool img enough (k + missing r.1) s' ∧
      Keeps r.1 pgdir ∧ Partial img r.1 (last.toNat + 4096) ∧ (r.2 < 0 → ¬ enough) ∧
      (¬ r.2 < 0 → ∀ va : Word, Range a.toNat (last.toNat + 4096) va.toNat →
        (r.1.pde (PDX va)).isSome)) s := by
  induction n generalizing a pa pgdir s with
  | zero => omega
  | succ n ih =>
    unfold Vm.mapLoop
    have hta := ht a ⟨Nat.le_refl _, by omega⟩
    refine wp.seq (h.walkpgdir hta hs) fun r t hr => ?_
    obtain ⟨hs', hr, hkeep, hfail, hsome⟩ := hr
    split
    · next hf =>
      exact wp.pure.mpr ⟨hs', hkeep, hr.mono (by omega), fun _ => hfail hf,
        fun hc => absurd (Int.negSucc_lt_zero 0) hc⟩
    next hf =>
    obtain ⟨pte, hpte⟩ : ∃ pte, r.1.pte a = some pte :=
      Option.isSome_iff_exists.mp (Pgdir.isSome_pte ▸ hsome (by simpa using hf))
    have hnot := hr.above a pte (Nat.le_refl _) hpte
    rw [hpte, Option.any_some, hnot, if_neg Bool.false_ne_true]
    have hset := hr.setPte hal ha hpte hpa hperm
    have hmiss : missing (r.1.setPte a (pa ||| perm ||| PTE_P)) = missing r.1 := by
      unfold missing
      congr 1
      funext i
      rw [← Option.not_isSome, ← Option.not_isSome, Pgdir.isSome_setPte]
    have hkeep' : Keeps (r.1.setPte a (pa ||| perm ||| PTE_P)) pgdir := fun i hi => by
      rw [Pgdir.isSome_setPte]
      exact hkeep i hi
    have hpage {va : Word} (hva : Range a.toNat (a.toNat + 4096) va.toNat) :
        ((r.1.setPte a (pa ||| perm ||| PTE_P)).pde (PDX va)).isSome := by
      rw [Pgdir.isSome_setPte, ← Pgdir.isSome_pte,
        Pgdir.pte_congr (b := a) (by unfold Range at hva; omega), hpte]
      rfl
    dsimp only
    split
    · next heq =>
      subst heq
      exact wp.pure.mpr ⟨hmiss ▸ hs', hkeep', hset, fun hc => absurd hc (Int.lt_irrefl 0),
        fun _ va hva => hpage hva⟩
    next hne =>
    obtain ⟨hlt, hnext⟩ := next_of_ne_last hal hlast hle hne
    have hpanext : (pa + PGSIZE).toNat % 4096 = 0 := by
      rw [BitVec.toNat_add, toNat_PGSIZE]
      omega
    unfold Above at ha
    refine (ih (hnext ▸ hset) (by omega) (by unfold Above; omega) (by omega) (fun va hva => ht va ?_)
      hpanext (by omega) (hmiss ▸ hs')).mono ?_
    · unfold Range at hva ⊢
      omega
    · rintro r' t' ⟨ht', hk', hp', hf', hc'⟩
      refine ⟨ht', fun i hi => hk' i (hkeep' i hi), hp', hf', fun hc va hva => ?_⟩
      by_cases hin : va.toNat < a.toNat + 4096
      · exact hk' _ (hpage ⟨hva.1, hin⟩)
      · refine hc' hc va ?_
        unfold Range at hva ⊢
        omega

end Partial

/-- The regions follow each other, the first one from `a` on. -/
def Regions : Nat → List Kmap → Prop
  | _, [] => True
  | a, k :: ks => a ≤ k.p.toNat ∧ Region k ∧ Regions (pageDown (k.e - 1).toNat + 4096) ks

theorem mapKernel_wp {ks : List Kmap} (h : Partial img pgdir n) (hks : Regions n ks)
    (hs : Pool img enough (k + missing pgdir) s) :
    wp (mapKernel pgdir ks) (fun o s' => Pool img enough k s' ∧ (o = none → ¬ enough) ∧
      ∀ d, o = some d → (∃ m, Partial img d m) ∧ Keeps d pgdir ∧ ∀ e ∈ ks, ∀ va : Word,
        Range e.p.toNat (pageDown (e.e - 1).toNat + 4096) va.toNat → (d.pde (PDX va)).isSome) s := by
  induction ks generalizing n pgdir s with
  | nil =>
    refine wp.pure.mpr ⟨hs.mono (Nat.le_add_right ..), fun hn => (by cases hn),
      fun d hd => ?_⟩
    obtain rfl := Option.some.inj hd
    exact ⟨⟨n, h⟩, fun _ hi => hi, by simp⟩
  | cons e ks ih =>
    obtain ⟨hn, he, hks⟩ := hks
    have hlast : (PGROUNDDOWN (e.p + (e.e - e.p) - 1)).toNat = pageDown (e.e - 1).toNat := by
      rw [toNat_PGROUNDDOWN, show e.p + (e.e - e.p) - 1 = e.e - 1 by bv_omega]
    have hal := he.aligned
    have hle : e.p.toNat ≤ pageDown (e.e - 1).toNat := by
      have := he.le
      unfold pageDown
      omega
    have hcount : (pageDown (e.e - 1).toNat - e.p.toNat) / 4096 < NPAGES := by
      have := (e.e - 1).isLt
      have : (2 : Nat) ^ 32 = NPAGES * 4096 := by decide
      unfold pageDown
      omega
    unfold Vm.mapKernel mappages
    rw [PGROUNDDOWN_of_aligned hal]
    refine wp.seq ((h.mono hn).mapLoop hal he.above ?_ ?_ ?_ he.perm hal ?_ hs) fun r t hr => ?_
    · rw [hlast]
      exact Nat.mul_mod_left ..
    · rwa [hlast]
    · rw [hlast]
      exact he.tables
    · rwa [hlast]
    rw [hlast] at hr
    obtain ⟨hs', hkeep, hr, hfail, hcov⟩ := hr
    split
    · next hf => exact wp.pure.mpr ⟨hs'.mono (Nat.le_add_right ..), fun _ => hfail hf,
        fun d hd => by cases hd⟩
    · next hf =>
      refine (ih hr hks hs').mono ?_
      rintro o t' ⟨ht', hnone, hd⟩
      refine ⟨ht', hnone, fun d ho => ?_⟩
      obtain ⟨hpart, hk, hall⟩ := hd d ho
      refine ⟨hpart, fun i hi => hk i (hkeep i hi), List.forall_mem_cons.mpr ⟨?_, hall⟩⟩
      exact fun va hva => hk _ (hcov hf va hva)

/-- Each table of the kernel's serves one of the regions. -/
theorem kmap_covers (img : Image) {i : BitVec 10} (hi : KernelTable i) :
    ∃ e ∈ kmap img, ∃ va : Word, PDX va = i ∧
      Range e.p.toNat (pageDown (e.e - 1).toNat + 4096) va.toNat := by
  obtain ⟨hal, htext, hbelow⟩ := img.data_bounds
  have hdata := img.toNat_data_sub
  have hend := img.pageDown_data
  have hlt := i.isLt
  have hnat : (BitVec.ofNat 32 (i.toNat * 2 ^ 22)).toNat = i.toNat * 2 ^ 22 := by
    rw [BitVec.toNat_ofNat]
    omega
  have hpdx : PDX (BitVec.ofNat 32 (i.toNat * 2 ^ 22)) = i := by
    apply BitVec.eq_of_toNat_eq
    rw [toNat_PDX, hnat]
    omega
  unfold KernelTable at hi
  by_cases hzero : i.toNat = 0
  · -- the first table begins with the user's addresses
    refine ⟨⟨USERTOP, 0x100000, PTE_W⟩, by simp [kmap], USERTOP, ?_, by decide, by decide⟩
    exact BitVec.eq_of_toNat_eq hzero.symm
  by_cases hdev : 1016 ≤ i.toNat
  · refine ⟨⟨0xFE000000, 0, PTE_W⟩, by simp [kmap], _, hpdx, ?_, ?_⟩
    · rw [hnat]
      exact Nat.mul_le_mul_right (2 ^ 22) hdev
    · rw [hnat]
      have : i.toNat * 2 ^ 22 < 1024 * 2 ^ 22 := Nat.mul_lt_mul_of_pos_right hlt (by decide)
      exact Nat.lt_of_lt_of_le this
        (by decide : 1024 * 2 ^ 22 ≤ pageDown (0 - 1 : Word).toNat + 4096)
  by_cases htext' : i.toNat * 2 ^ 22 < img.data.toNat
  · refine ⟨⟨0x100000, img.data, 0⟩, by simp [kmap], _, hpdx, ?_, ?_⟩
    · rw [hnat]
      exact Nat.le_trans (by decide : 0x100000 ≤ 1 * 2 ^ 22) (Nat.mul_le_mul_right _ (by omega))
    · rw [hnat]
      dsimp only
      omega
  · refine ⟨⟨img.data, PHYSTOP, PTE_W⟩, by simp [kmap], _, hpdx, ?_, ?_⟩
    · rw [hnat]
      exact Nat.not_lt.mp htext'
    · rw [hnat]
      have : i.toNat * 2 ^ 22 < 4 * 2 ^ 22 :=
        Nat.mul_lt_mul_of_pos_right (by omega) (by decide)
      exact Nat.lt_of_lt_of_le this
        (by decide : 4 * 2 ^ 22 ≤ pageDown (PHYSTOP - 1).toNat + 4096)

theorem kmap_regions (img : Image) : Regions 0 (kmap img) := by
  obtain ⟨hal, htext, hbelow⟩ := img.data_bounds
  have hdata := img.toNat_data_sub
  have hend := img.pageDown_data
  have low {va : Word} (h : va.toNat < 0x1000000) : KernelTable (PDX va) :=
    kernelTable_PDX.mpr (.inl h)
  have io : Region ⟨USERTOP, 0x100000, PTE_W⟩ :=
    ⟨rfl, by decide, by decide, rfl, fun va hva => low (Nat.lt_trans hva.2 (by decide))⟩
  have text : Region ⟨0x100000, img.data, 0⟩ := by
    refine ⟨(by decide : (0x100000 : Word).toNat % 4096 = 0), (by decide : Above 0x100000), ?_,
      BitVec.zero_and, fun va hva => low ?_⟩
    · dsimp only
      rw [hdata]
      exact Nat.le_sub_one_of_lt htext
    · have hva := hva.2
      dsimp only at hva
      omega
  have data : Region ⟨img.data, PHYSTOP, PTE_W⟩ := by
    refine ⟨hal, ?_, ?_, (by decide : PTE_W &&& PTE_U = 0), fun va hva => low ?_⟩
    · unfold Above
      dsimp only
      omega
    · exact Nat.le_trans (Nat.le_sub_one_of_lt hbelow)
        (by decide : 0x1000000 - 1 ≤ (PHYSTOP - 1).toNat)
    · exact Nat.lt_of_lt_of_le hva.2 (by decide : pageDown (PHYSTOP - 1).toNat + 4096 ≤ 0x1000000)
  have devices : Region ⟨0xFE000000, 0, PTE_W⟩ :=
    ⟨rfl, by decide, by decide, rfl, fun va hva => kernelTable_PDX.mpr (.inr hva.1)⟩
  refine ⟨Nat.zero_le _, io, ?_, text, ?_, data, ?_, devices, trivial⟩
  · exact (by decide : pageDown (0x100000 - 1 : Word).toNat + 4096 ≤ (0x100000 : Word).toNat)
  · dsimp only
    omega
  · exact (by decide : pageDown (PHYSTOP - 1).toNat + 4096 ≤ (0xFE000000 : Word).toNat)

/-- With thirteen pages the kernel's part of an address space can be built. -/
theorem setupkvm_wp (hs : Pool img enough (k + 13) s) :
    wp (setupkvm img) (fun o s' => Pool img enough k s' ∧ (o = none → ¬ enough) ∧
      ∀ d, o = some d → Layout img d fun _ => False) s := by
  unfold setupkvm
  refine wp.seq (hs.kalloc (k := k + 12)) fun v t hv => ?_
  obtain ⟨ht, hnone, hframe⟩ := hv
  split
  · next hz => exact wp.pure.mpr ⟨ht.mono (Nat.le_add_right ..), fun _ => hnone hz,
      fun d hd => by cases hd⟩
  next hz =>
  rw [wp.bind, memset, wp.modify]
  have start : Partial img ⟨v, fun _ => none⟩ 0 :=
    ⟨hframe hz, fun i pgtab h => (by cases h), fun va pte h => by simp [Pgdir.pte] at h,
      fun va pte _ h => by simp [Pgdir.pte] at h, fun va pte _ h => by simp [Pgdir.pte] at h⟩
  refine (mapKernel_wp start (kmap_regions img) (k := k) (ht.setMem _)).mono ?_
  rintro o t' ⟨ht', hno, hd⟩
  refine ⟨ht', hno, fun d ho => ?_⟩
  obtain ⟨⟨m, hpart⟩, -, hall⟩ := hd d ho
  refine ⟨hpart.frame, fun i pgtab hi => (hpart.tables i pgtab hi).1, fun i => ⟨fun hi => ?_,
    fun hi => ?_⟩, fun va pte _ h => hpart.kernel va pte h, fun _ _ _ h => h.elim,
    fun va pte hlt _ h => hpart.user va pte hlt h⟩
  · obtain ⟨pgtab, hp⟩ := Option.isSome_iff_exists.mp hi
    exact (hpart.tables i pgtab hp).2
  · obtain ⟨e, he, va, rfl, hva⟩ := kmap_covers img hi
    exact hall e he va hva

end PerrOS.Vm
