import PerrOS.Vm.Draw
import PerrOS.Vm.Sbrk

/-!
# Copying an address space

`copyuvm` copies every user page of a directory to a page of its own. How many
pages it takes is known beforehand, and it fails only if one of them is
missing.
-/

namespace PerrOS.Vm

open Lib (wp)

variable {img : Image} {d child : Pgdir} {va a limit sz stackSz v : Word}
variable {s₀ s s' : Kmem} {k n : Nat} {S T : Nat → Prop}

/-- A directory whose user pages are those of a heap and a stack, and a free
list of pages that nobody uses. -/
structure Segmented (img : Image) (d : Pgdir) (sz stackSz : Word) (s : Kmem) : Prop where
  mapped : ∀ va : Word, va.toNat < 0xA0000 →
    (d.Mapped va ↔ UserPages sz.toNat stackSz.toNat va.toNat)
  le : pageUp sz.toNat ≤ stackSz.toNat
  top : stackSz.toNat ≤ 0xA0000
  aligned : stackSz.toNat % 4096 = 0
  frames : ∀ v ∈ s.freelist, Frame img v
  nodup : s.freelist.Nodup
  unused : ∀ u v w a, d.Uses u v → w ∈ s.freelist → InPage v a → ¬ InPage w a

/-- Every mapped user page has the bytes of the page of `d` that it is a copy
of. -/
def SameBytes (s₀ s : Kmem) (d child : Pgdir) : Prop :=
  ∀ va pte pte' o : Word, va.toNat < 0xA0000 → d.pte va = some pte → child.pte va = some pte' →
    present pte' → o.toNat < 4096 → s.mem (PTE_ADDR pte' + o) = s₀.mem (PTE_ADDR pte + o)

/-- The pages that `T` names have been copied. -/
structure Copying (img : Image) (d : Pgdir) (T : Nat → Prop) (s₀ s : Kmem) (child : Pgdir)
    (k : Nat) : Prop extends Built s₀ s child k where
  layout : Layout img child T
  bytes : SameBytes s₀ s d child

theorem PTE_ADDR_aligned (pte : Word) : (PTE_ADDR pte).toNat % 4096 = 0 := by
  have h : PTE_ADDR pte = PGROUNDDOWN pte := rfl
  rw [h, toNat_PGROUNDDOWN]
  exact Nat.mul_mod_left ..

namespace Copying

theorem congr (h : Copying img d S s₀ s child k) (hST : ∀ n, n < 0xA0000 → (S n ↔ T n)) :
    Copying img d T s₀ s child k := ⟨h.toBuilt, h.layout.congr hST, h.bytes⟩

/-- One page more: the page at `a` is copied to the next page of the free
list. -/
theorem page (h : Copying img d T s₀ s child k) (hs : Segmented img d sz stackSz s₀)
    (ha : a.toNat < 0xA0000) {pte : Word} (hpte : d.pte a = some pte) (hpres : present pte)
    {t : Kmem} (ht : Drawn s₀ t (k + 1)) (hmem : t.mem = s.mem) (hv : s₀.freelist[k]? = some v) :
    Copying img d (fun n => T n ∨ n / 4096 = a.toNat / 4096) s₀
      { t with mem := fun b =>
        if (b - v).toNat < PGSIZE.toNat then t.mem (PTE_ADDR pte + (b - v)) else t.mem b }
      (child.setPte a (v ||| (PTE_W ||| PTE_U) ||| PTE_P)) (k + 1) := by
  have hfree := List.mem_of_getElem? hv
  have hframe := hs.frames v hfree
  have haddr := hframe.PTE_ADDR_entry
  obtain ⟨old, hold⟩ := h.layout.user_pte ha
  refine ⟨h.userPage hs.nodup hframe (ht.setMem hfree fun b hb => if_neg hb) hv a,
    h.layout.setPte ha hframe, fun b q q' o hb hq hq' hpres' ho => ?_⟩
  dsimp only
  by_cases he : a.toNat / 4096 = b.toNat / 4096
  · rw [← Pgdir.pte_congr he, Pgdir.pte_setPte_self hold] at hq'
    rw [← Pgdir.pte_congr he, hpte] at hq
    obtain rfl := Option.some.inj hq
    obtain rfl := Option.some.inj hq'
    have hin : InPage v (v + o) := inPage_add ho
    unfold InPage at hin
    rw [haddr, if_pos hin, hmem, show v + o - v = o by bv_omega]
    -- the original is in no page that was free
    exact h.kept _ fun w hw => hs.unused _ _ w _ (.page a pte ha hpte hpres) hw (inPage_add ho)
  · rw [Pgdir.pte_setPte_of_ne he] at hq'
    have htaken := h.taken _ _ (.page b q' hb hq' hpres')
    have hne : PTE_ADDR q' ≠ v := fun hc => next_not_taken hs.nodup hv (hc ▸ htaken)
    have hout : ¬ InPage v (PTE_ADDR q' + o) :=
      not_inPage_of_ne (PTE_ADDR_aligned q') hframe.aligned hne (inPage_add ho)
    unfold InPage at hout
    rw [if_neg hout, hmem]
    exact h.bytes b q q' o hb hq hq' hpres' ho

/-- At the end of a loop nothing is left to copy. -/
theorem done (h : Copying img d T s₀ s child k) (ha : ¬ a < limit) (hal : a.toNat % 4096 = 0) :
    Copying img d (fun m => T m ∨ Range a.toNat (pageUp limit.toNat) m) s₀ s child
      (k + (pageUp limit.toNat - a.toNat) / 4096) := by
  have ha : limit.toNat ≤ a.toNat := Nat.not_lt.mp ha
  have hzero : (pageUp limit.toNat - a.toNat) / 4096 = 0 := by
    unfold pageUp
    omega
  rw [hzero, Nat.add_zero]
  refine h.congr fun m _ => ⟨.inl, fun hm => hm.resolve_right fun hr => ?_⟩
  unfold Range pageUp at hr
  omega

/-- One of the loops of `copyuvm`, over mapped pages that are not copied
yet. -/
theorem copyLoop (hs : Segmented img d sz stackSz s₀) (hl : limit.toNat ≤ 0xA0000)
    {as : List Word} (has : pages limit n a = some as) (hal : a.toNat % 4096 = 0)
    (h : Copying img d T s₀ s child k)
    (hfresh : ∀ m, Range a.toNat (pageUp limit.toNat) m → ¬ T m)
    (hmapped : ∀ va : Word, Range a.toNat (pageUp limit.toNat) va.toNat → d.Mapped va) :
    wp (copyLoop d child as) (fun r t =>
      (r.2 = true ∧ Copying img d (fun m => T m ∨ Range a.toNat (pageUp limit.toNat) m) s₀ t r.1
        (k + (pageUp limit.toNat - a.toNat) / 4096)) ∨
      (r.2 = false ∧ ¬ Available s₀ (k + (pageUp limit.toNat - a.toNat) / 4096) ∧
        Freeable img r.1 ∧ Pool img False 0 t)) s := by
  induction n generalizing a as child T s k with
  | zero =>
    unfold pages at has
    split at has
    · cases has
    · next hlt =>
      cases has
      exact wp.pure.mpr (.inl ⟨rfl, h.done hlt hal⟩)
  | succ n ih =>
    unfold pages at has
    split at has
    case isFalse hlt =>
      cases has
      exact wp.pure.mpr (.inl ⟨rfl, h.done hlt hal⟩)
    case isTrue hlt =>
      obtain ⟨as', has', rfl⟩ := Option.map_eq_some_iff.mp has
      have hnext := toNat_next (by omega) hlt
      have hlt : a.toNat < limit.toNat := hlt
      have ha : a.toNat < 0xA0000 := by omega
      have hin : Range a.toNat (pageUp limit.toNat) a.toNat := by
        unfold Range pageUp
        omega
      have hcount : (pageUp limit.toNat - a.toNat) / 4096 =
          (pageUp limit.toNat - (a + PGSIZE).toNat) / 4096 + 1 := by
        unfold pageUp
        omega
      obtain ⟨pte, hpte, hpres⟩ := hmapped a hin
      unfold Vm.copyLoop
      rw [hpte]
      dsimp only
      rw [if_neg (by simp [hpres]), hcount]
      refine wp.seq (h.kalloc hs.frames) fun v t hv => ?_
      obtain ⟨hmem, ⟨hz, hlist, hno⟩ | ⟨hz, hget, ht⟩⟩ := hv
      · rw [if_pos hz]
        exact wp.pure.mpr (.inr ⟨rfl, not_available hno (by omega), h.layout.freeable,
          hlist ▸ h.frames hs.frames, False.elim, False.elim⟩)
      · obtain ⟨old, hold⟩ := h.layout.user_pte ha
        obtain rfl := h.layout.absent a old ha (hfresh _ hin) hold
        rw [if_neg hz, wp.bind, memmove, wp.modify,
          mappages_page hal ha hold, if_neg (by simp [present]), pure_bind]
        dsimp only
        rw [if_neg (Int.lt_irrefl 0)]
        refine (ih has' (by omega) (h.page hs ha hpte hpres ht hmem hget) ?_ ?_).mono ?_
        · rintro m hm (hT | hpage)
          · refine hfresh m ?_ hT
            unfold Range at hm ⊢
            omega
          · unfold Range at hm
            omega
        · intro va hva
          refine hmapped va ?_
          unfold Range at hva ⊢
          omega
        · rintro r t (⟨hr, hc⟩ | ⟨hr, hno', hfree⟩)
          · refine .inl ⟨hr, ?_⟩
            rw [Nat.add_comm _ 1, ← Nat.add_assoc]
            refine hc.congr fun m _ => ?_
            rw [or_assoc]
            refine or_congr_right ?_
            unfold Range pageUp
            omega
          · refine .inr ⟨hr, ?_, hfree⟩
            rwa [Nat.add_comm _ 1, ← Nat.add_assoc]

end Copying

-- ---------------------------------------------------------------------------
-- copyuvm
-- ---------------------------------------------------------------------------

/-- What a copy has to be: the same user pages with the same bytes, on pages
that the original does not use and that are used once each; and the original
is as it was. -/
structure Copied (d child : Pgdir) (s s' : Kmem) : Prop where
  mapped : ∀ va : Word, va.toNat < 0xA0000 → (child.Mapped va ↔ d.Mapped va)
  bytes : SameBytes s s' d child
  apart : ∀ u v u' w a, child.Uses u v → d.Uses u' w → InPage v a → ¬ InPage w a
  once : ∀ u u' v, child.Uses u v → child.Uses u' v → u = u'
  kept : ∀ u v a, d.Uses u v → InPage v a → s'.mem a = s.mem a

/-- The pages that `copyuvm` takes. -/
def copyPages (sz stackSz : Nat) : Nat :=
  13 + (pageUp sz - 4096) / 4096 + (0xA0000 - stackSz) / 4096

theorem Segmented.copied (h : Segmented img d sz stackSz s)
    (hc : Copying img d (UserPages sz.toNat stackSz.toNat) s s' child k) : Copied d child s s' where
  mapped va hva := (hc.layout.mapped_iff hva).trans (h.mapped va hva).symm
  bytes := hc.bytes
  apart _ v _ w a hu hu' hv hw := h.unused _ w v a hu' (hc.mem_freelist hu) hw hv
  once := hc.once
  kept _ v a hu ha := hc.kept a fun w hw => h.unused _ v w a hu hw ha

/-- `copyuvm` copies a directory with two segments if `kalloc` finds all the
pages that it takes, and fails otherwise. -/
theorem copyuvm_wp (h : Segmented img d sz stackSz s) :
    wp (copyuvm img d sz stackSz) (fun o s' =>
      (o = none ∧ ¬ Available s (copyPages sz.toNat stackSz.toNat) ∧
        Pool img False 0 s') ∨
      ∃ child, o = some child ∧ Copied d child s s' ∧
        Layout img child (UserPages sz.toNat stackSz.toNat) ∧
        Available s (copyPages sz.toNat stackSz.toNat)) s := by
  have hle := h.le
  have htop := h.top
  have hal := h.aligned
  have hsz : sz.toNat ≤ 0xA0000 := by
    unfold pageUp at hle
    omega
  have hpage : PGSIZE.toNat = 4096 := rfl
  have huser : pageUp USERTOP.toNat = 0xA0000 := by decide
  unfold copyuvm
  refine wp.seq (setupkvm_built h.frames h.nodup) fun o t ho => ?_
  obtain ⟨rfl, hno, hf⟩ | ⟨child, rfl, hl, hb⟩ := ho
  · exact wp.pure.mpr (.inl ⟨rfl, not_available hno (by unfold copyPages; omega), hf⟩)
  have start : Copying img d (fun _ => False) s t child 13 := by
    refine ⟨hb, hl, fun va pte pte' o hva _ hpte' hpres => ?_⟩
    rw [hl.absent va pte' hva id hpte'] at hpres
    simp [present] at hpres
  obtain ⟨heap, hheap⟩ := pages_user hsz PGSIZE
  obtain ⟨stack, hstack⟩ : ∃ as, pages USERTOP NPAGES stackSz = some as :=
    pages_user (Nat.le_refl _) stackSz
  dsimp only
  refine wp.bind.mpr ((wp.lift hheap).mpr (wp.seq (start.copyLoop h hsz hheap (by decide)
    (fun _ _ => id) fun va hva => ?_) fun r t hr => ?_))
  · rw [hpage] at hva
    refine (h.mapped va ?_).mpr (.inl hva)
    unfold Range at hva
    omega
  rw [hpage] at hr
  obtain ⟨hr, hcopy⟩ | ⟨hr, hno, hfree, hp⟩ := hr
  · rw [hr, if_neg Bool.noConfusion]
    refine wp.bind.mpr ((wp.lift hstack).mpr (wp.seq (hcopy.copyLoop h (Nat.le_refl _) hstack hal
      (fun m hm => ?_) fun va hva => ?_) fun r t hr => ?_))
    · rintro (hm' | hm')
      · exact hm'
      · unfold Range at hm hm'
        omega
    · rw [huser] at hva
      exact (h.mapped va hva.2).mpr (.inr hva)
    rw [huser] at hr
    obtain ⟨hr, hcopy⟩ | ⟨hr, hno, hfree, hp⟩ := hr
    · rw [hr, if_neg Bool.noConfusion]
      have hdone : Copying img d (UserPages sz.toNat stackSz.toNat) s t r.1 _ :=
        hcopy.congr fun m _ => by rw [false_or, UserPages]
      exact wp.pure.mpr (.inr ⟨r.1, rfl, h.copied hdone, hdone.layout, hdone.available⟩)
    · rw [if_pos hr]
      exact wp.seq (hfree.freevm hp) fun _ _ hp' => wp.pure.mpr (.inl ⟨rfl, hno, hp'⟩)
  · rw [if_pos hr]
    exact wp.seq (hfree.freevm hp) fun _ _ hp' =>
      wp.pure.mpr (.inl ⟨rfl, not_available hno (by unfold copyPages; omega), hp'⟩)

/-- `copyuvm` does not panic, and what it returns is a copy. -/
theorem copyuvm_copies (h : Segmented img d sz stackSz s) :
    wp (copyuvm img d sz stackSz) (fun o s' => ∀ child, o = some child → Copied d child s s') s := by
  refine (copyuvm_wp h).mono ?_
  rintro o s' (⟨rfl, -, -⟩ | ⟨child, rfl, hc, -, -⟩)
  · exact fun child ho => by cases ho
  · rintro _ ⟨⟩
    exact hc

/-- An address space with one page of heap and one of stack, and what is then
left of two hundred pages. -/
theorem exists_segmented : ∃ d s, Layout smallImage d (UserPages 8192 0x9F000) ∧
    Segmented smallImage d 8192 0x9F000 s ∧ Drawn ample s 15 := by
  have hav (n : Nat) (hn : n ≤ 200) : Available ample n := ⟨by simpa [ample] using hn, fun _ _ => rfl⟩
  obtain ⟨o, s, -, ⟨-, hno, -⟩ | ⟨d, -, hl, hb⟩⟩ := setupkvm_built ample_frames ample_nodup
  · exact absurd (hav 13 (by decide)) hno
  obtain ⟨v, t, -, -, ⟨-, -, hno⟩ | ⟨-, hv, ht⟩⟩ := hb.kalloc ample_frames
  · exact absurd (hav 14 (by decide)) hno
  obtain ⟨w, u, -, -, ⟨-, -, hno⟩ | ⟨-, hw, hu⟩⟩ := ht.kalloc ample_frames
  · exact absurd (hav 15 (by decide)) hno
  have hvf := ample_frames v (List.mem_of_getElem? hv)
  have hwf := ample_frames w (List.mem_of_getElem? hw)
  have hbuilt := ((hb.userPage ample_nodup hvf ht hv 4096).userPage ample_nodup hwf hu hw 0x9F000)
  have hlayout := hl.userPages hvf hwf
  refine ⟨_, u, hlayout, ⟨fun va hva => hlayout.mapped_iff hva, by decide, by decide, by decide,
    hu.frames ample_frames, ?_, fun _ _ _ _ => hbuilt.unused ample_frames ample_nodup⟩, hu⟩
  rw [hu.freelist]
  exact ample_nodup.sublist (List.drop_sublist ..)

theorem copyuvm_copies_page : ∃ d s, wp (copyuvm smallImage d 8192 0x9F000) (fun o s' =>
    ∀ child, o = some child → Copied d child s s') s := by
  obtain ⟨d, s, -, hs, -⟩ := exists_segmented
  exact ⟨d, s, copyuvm_copies hs⟩

end PerrOS.Vm
