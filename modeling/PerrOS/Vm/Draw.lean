import PerrOS.Vm.Grow

/-!
# What a new address space is made of

The pages that a function takes from the free list, one after another, and
what a directory uses each of them for. Only these pages are written.
-/

namespace PerrOS.Vm

open Lib (wp wlp)
open Function (update)

variable {img : Image} {d d' : Pgdir} {va a last perm pa v w limit : Word}
variable {s₀ s s' : Kmem} {k m n : Nat}

-- ---------------------------------------------------------------------------
-- Physical pages
-- ---------------------------------------------------------------------------

/-- Physical address `a` is in the page at `v`. -/
def InPage (v a : Word) : Prop := (a - v).toNat < PGSIZE.toNat

theorem inPage_iff (hv : v.toNat % 4096 = 0) : InPage v a ↔ a.toNat / 4096 = v.toNat / 4096 := by
  have ha := a.isLt
  have hlt := v.isLt
  unfold InPage
  rw [BitVec.toNat_sub, toNat_PGSIZE]
  omega

/-- Two pages have no byte in common. -/
theorem not_inPage_of_ne (hv : v.toNat % 4096 = 0) (hw : w.toNat % 4096 = 0) (hne : v ≠ w)
    (ha : InPage v a) : ¬ InPage w a := by
  rw [inPage_iff hv] at ha
  rw [inPage_iff hw]
  intro hc
  exact hne (BitVec.eq_of_toNat_eq (by omega))

theorem inPage_add {o : Word} (ho : o.toNat < 4096) : InPage v (v + o) := by
  unfold InPage
  rwa [show v + o - v = o by bv_omega]

-- ---------------------------------------------------------------------------
-- Taking pages
-- ---------------------------------------------------------------------------

theorem Available.mono (h : Available s n) (hk : k ≤ n) : Available s k :=
  ⟨Nat.le_trans hk h.1, fun i hi => h.2 i (Nat.lt_of_lt_of_le hi hk)⟩

theorem not_available (h : ¬ Available s k) (hk : k ≤ n) : ¬ Available s n :=
  fun hn => h (hn.mono hk)

/-- From `s₀` to `s`, the first `k` pages of the free list were taken, and only
pages that were free have been written. -/
structure Drawn (s₀ s : Kmem) (k : Nat) : Prop where
  available : Available s₀ k
  freelist : s.freelist = s₀.freelist.drop k
  grant : s.grant = s₀.grant
  calls : s.calls = s₀.calls + k
  kept : ∀ a, (∀ v ∈ s₀.freelist, ¬ InPage v a) → s.mem a = s₀.mem a

namespace Drawn

theorem refl (s : Kmem) : Drawn s s 0 := ⟨.zero s, rfl, rfl, rfl, fun _ _ => rfl⟩

theorem frames (h : Drawn s₀ s k) (hf : ∀ v ∈ s₀.freelist, Frame img v) :
    ∀ v ∈ s.freelist, Frame img v :=
  fun v hv => hf v (List.mem_of_mem_drop (h.freelist ▸ hv))

/-- Writing a page that was free. -/
theorem setMem (h : Drawn s₀ s k) (hv : v ∈ s₀.freelist) {mem : Word → BitVec 8}
    (hm : ∀ a, ¬ InPage v a → mem a = s.mem a) : Drawn s₀ { s with mem } k :=
  ⟨h.available, h.freelist, h.grant, h.calls, fun a ha => (hm a (ha v hv)).trans (h.kept a ha)⟩

/-- The next page is page `k` of the free list, if there is one. -/
theorem kalloc (h : Drawn s₀ s k) (hf : ∀ v ∈ s₀.freelist, Frame img v) :
    wp kalloc (fun v s' => s'.mem = s.mem ∧
      ((v = 0 ∧ s'.freelist = s.freelist ∧ ¬ Available s₀ (k + 1)) ∨
       (v ≠ 0 ∧ s₀.freelist[k]? = some v ∧ Drawn s₀ s' (k + 1)))) s := by
  have hlist := h.freelist
  have hgrant : s.grant s.calls = s₀.grant (s₀.calls + k) := by rw [h.grant, h.calls]
  cases hg : s.grant s.calls with
  | false =>
    refine ⟨0, { s with calls := s.calls + 1 }, by simp [Vm.kalloc, hg], rfl, .inl ⟨rfl, rfl, ?_⟩⟩
    intro hav
    have := hav.2 k (Nat.lt_succ_self k)
    rw [← hgrant, hg] at this
    cases this
  | true =>
    cases hl : s.freelist with
    | nil =>
      refine ⟨0, { s with calls := s.calls + 1 }, by simp [Vm.kalloc, hg, hl], rfl,
        .inl ⟨rfl, hl, fun hav => ?_⟩⟩
      have hlen := hav.1
      have hdrop : s₀.freelist.length ≤ k := List.drop_eq_nil_iff.mp (hlist.symm.trans hl)
      omega
    | cons v rest =>
      have hdrop : s₀.freelist.drop k = v :: rest := hlist.symm.trans hl
      have hget : s₀.freelist[k]? = some v := by
        have h0 : (s₀.freelist.drop k)[0]? = s₀.freelist[k + 0]? := List.getElem?_drop
        rw [hdrop, Nat.add_zero] at h0
        exact h0.symm
      have hlt : k < s₀.freelist.length := (List.getElem?_eq_some_iff.mp hget).choose
      have hv := hf v (List.mem_of_getElem? hget)
      refine ⟨v, { s with freelist := rest, calls := s.calls + 1 }, by simp [Vm.kalloc, hg, hl],
        rfl, .inr ⟨hv.ne, hget, ⟨hlt, fun i hi => ?_⟩, ?_, h.grant, ?_, h.kept⟩⟩
      · obtain hi | rfl := Nat.lt_succ_iff_lt_or_eq.mp hi
        · exact h.available.2 i hi
        · rw [← hgrant, hg]
      · dsimp only
        rw [← List.drop_drop, hdrop]
        rfl
      · dsimp only
        rw [h.calls, Nat.add_assoc]

end Drawn

-- ---------------------------------------------------------------------------
-- What a directory uses
-- ---------------------------------------------------------------------------

/-- What a page of physical memory is used for: as the directory, as one of
its tables, or as a page of the user's. -/
inductive Use
  | dir
  | table (i : BitVec 10)
  | page (n : Nat)

inductive Pgdir.Uses (d : Pgdir) : Use → Word → Prop
  | dir : Uses d .dir d.frame
  | table (i : BitVec 10) (pgtab : Ptab) : d.pde i = some pgtab → Uses d (.table i) pgtab.frame
  | page (va pte : Word) : va.toNat < 0xA0000 → d.pte va = some pte → present pte →
    Uses d (.page (va.toNat / 4096)) (PTE_ADDR pte)

theorem Pgdir.Uses.addPtab {u : Use} (h : (d.addPtab va v).Uses u w) :
    d.Uses u w ∨ (u = .table (PDX va) ∧ w = v) := by
  cases h with
  | dir => exact .inl .dir
  | table i pgtab hi =>
    unfold Pgdir.addPtab at hi
    dsimp only at hi
    by_cases hd : i = PDX va
    · subst hd
      rw [Function.update_self] at hi
      exact .inr ⟨rfl, by rw [← Option.some.inj hi]⟩
    · rw [Function.update_of_ne hd] at hi
      exact .inl (.table i pgtab hi)
  | page b pte hb hpte hpres =>
    by_cases hd : PDX b = PDX va
    · obtain rfl : 0 = pte := by simpa [Pgdir.pte, Pgdir.addPtab, hd] using hpte
      simp [present] at hpres
    · refine .inl (.page b pte hb ?_ hpres)
      simpa [Pgdir.pte, Pgdir.addPtab, Function.update_of_ne hd] using hpte

/-- Writing an entry changes what is used for its page only. -/
theorem Pgdir.Uses.setPte {u : Use} (h : (d.setPte a pa).Uses u w) :
    d.Uses u w ∨ (u = .page (a.toNat / 4096) ∧ a.toNat / 4096 < 160 ∧ w = PTE_ADDR pa) := by
  cases h with
  | dir =>
    rw [Pgdir.setPte_frame]
    exact .inl .dir
  | table i pgtab hi =>
    obtain ⟨old, hold, hframe⟩ := Pgdir.setPte_pde hi
    exact .inl (hframe ▸ .table i old hold)
  | page b pte hb hpte hpres =>
    by_cases he : a.toNat / 4096 = b.toNat / 4096
    · cases hold : d.pte a with
      | none =>
        have hsame : d.setPte a pa = d := by
          unfold Pgdir.pte at hold
          unfold Pgdir.setPte
          rw [Option.map_eq_none_iff.mp hold]
        rw [hsame] at hpte
        exact .inl (.page b pte hb hpte hpres)
      | some old =>
        rw [← Pgdir.pte_congr he, Pgdir.pte_setPte_self hold] at hpte
        exact .inr ⟨by rw [he], by omega, by rw [← Option.some.inj hpte]⟩
    · rw [Pgdir.pte_setPte_of_ne he] at hpte
      exact .inl (.page b pte hb hpte hpres)

/-- The page that is taken next is not among those that were taken. -/
theorem next_not_taken (hn : s₀.freelist.Nodup) (hv : s₀.freelist[k]? = some v) :
    v ∉ s₀.freelist.take k := by
  intro hm
  obtain ⟨i, hi, hget⟩ := List.mem_take_iff_getElem.mp hm
  have hlt : i < s₀.freelist.length := by omega
  have hik : s₀.freelist[i]? = s₀.freelist[k]? := by
    rw [hv, List.getElem?_eq_getElem hlt, hget]
  have := (List.getElem?_inj hlt hn).mp hik
  omega

/-- The pages of a directory are among those that were taken, each of them
used once. -/
structure Built (s₀ s : Kmem) (d : Pgdir) (k : Nat) : Prop extends Drawn s₀ s k where
  taken : ∀ u v, d.Uses u v → v ∈ s₀.freelist.take k
  once : ∀ u u' v, d.Uses u v → d.Uses u' v → u = u'

namespace Built

theorem congr (h : Built s₀ s d k) (hs : Drawn s₀ s' k) (hd : ∀ u v, d'.Uses u v → d.Uses u v) :
    Built s₀ s' d' k :=
  ⟨hs, fun u v hu => h.taken u v (hd u v hu), fun u u' v hu hu' =>
    h.once u u' v (hd u v hu) (hd u' v hu')⟩

/-- The next page of the free list put to a new use. -/
theorem add (h : Built s₀ s d k) (hn : s₀.freelist.Nodup) (hs : Drawn s₀ s' (k + 1))
    (hv : s₀.freelist[k]? = some v) {u₀ : Use}
    (hd : ∀ u w, d'.Uses u w → d.Uses u w ∨ (u = u₀ ∧ w = v)) : Built s₀ s' d' (k + 1) := by
  have htake : s₀.freelist.take (k + 1) = s₀.freelist.take k ++ [v] := by
    rw [List.take_add_one, hv]
    rfl
  have hnew := next_not_taken hn hv
  refine ⟨hs, fun u w hu => ?_, fun u u' w hu hu' => ?_⟩
  · rw [htake, List.mem_append, List.mem_singleton]
    exact (hd u w hu).imp (h.taken u w) And.right
  · obtain hold | ⟨rfl, rfl⟩ := hd u w hu
    · obtain hold' | ⟨-, rfl⟩ := hd u' w hu'
      · exact h.once u u' w hold hold'
      · exact absurd (h.taken u w hold) hnew
    · obtain hold' | ⟨rfl, -⟩ := hd u' w hu'
      · exact absurd (h.taken u' w hold') hnew
      · rfl

theorem mem_freelist (h : Built s₀ s d k) {u : Use} (hu : d.Uses u v) : v ∈ s₀.freelist :=
  List.mem_of_mem_take (h.taken u v hu)

/-- The next page of the free list as a page of the user's. -/
theorem userPage (h : Built s₀ s d k) (hn : s₀.freelist.Nodup) (hf : Frame img v)
    (hs : Drawn s₀ s' (k + 1)) (hv : s₀.freelist[k]? = some v) (a : Word) :
    Built s₀ s' (d.setPte a (v ||| (PTE_W ||| PTE_U) ||| PTE_P)) (k + 1) := by
  refine h.add hn hs hv fun _ _ hu => hu.setPte.imp id fun hc => ⟨hc.1, ?_⟩
  exact hc.2.2.trans hf.PTE_ADDR_entry

/-- What a directory uses is not free any more. -/
theorem unused (h : Built s₀ s d k) (hf : ∀ v ∈ s₀.freelist, Frame img v)
    (hn : s₀.freelist.Nodup) {u : Use} (hu : d.Uses u v) (hw : w ∈ s.freelist)
    (ha : InPage v a) : ¬ InPage w a := by
  rw [h.freelist] at hw
  have hne : v ≠ w := by
    rw [← List.take_append_drop k s₀.freelist, List.nodup_append] at hn
    exact hn.2.2 v (h.taken u v hu) w hw
  exact not_inPage_of_ne (hf v (h.mem_freelist hu)).aligned (hf w (List.mem_of_mem_drop hw)).aligned
    hne ha

end Built

-- ---------------------------------------------------------------------------
-- The kernel's tables
-- ---------------------------------------------------------------------------

/-- A directory under construction: the pages taken so far and the tables that
are missing are `n` together. -/
def Tabled (s₀ s : Kmem) (d : Pgdir) (n : Nat) : Prop := ∃ k, Built s₀ s d k ∧ k + missing d = n

/-- An entry for an address above the user's. -/
theorem Tabled.setPte (h : Tabled s₀ s d n) (ha : Above a.toNat) : Tabled s₀ s (d.setPte a pa) n := by
  obtain ⟨k, h, hk⟩ := h
  have hmiss : missing (d.setPte a pa) = missing d := by
    unfold missing
    congr 1
    funext i
    rw [← Option.not_isSome, ← Option.not_isSome, Pgdir.isSome_setPte]
  refine ⟨k, h.congr h.toDrawn fun u v hu => ?_, hmiss ▸ hk⟩
  refine hu.setPte.resolve_right fun hc => ?_
  unfold Above at ha
  omega

section Tables

variable (hf : ∀ v ∈ s₀.freelist, Frame img v) (hn : s₀.freelist.Nodup)
include hf hn

theorem Tabled.walkpgdir (h : Tabled s₀ s d n) (ht : KernelTable (PDX va)) :
    wlp (walkpgdir d va) (fun r s' => (r.2 = true ∧ Tabled s₀ s' r.1 n) ∨
      (r.2 = false ∧ ¬ Available s₀ n)) s := by
  obtain ⟨k, h, hk⟩ := h
  unfold Vm.walkpgdir
  split
  · exact .pure (.inl ⟨rfl, k, h, hk⟩)
  · next hp =>
    refine .seq (.of_wp (h.kalloc hf)) fun v s' hv => ?_
    have hmiss := missing_addPtab ht hp v
    obtain ⟨-, ⟨hz, -, hno⟩ | ⟨hz, hget, hs'⟩⟩ := hv
    · rw [if_pos hz]
      exact .pure (.inr ⟨rfl, not_available hno (by omega)⟩)
    · rw [if_neg hz]
      refine .of_wp (wp.bind.mpr (wp.modify.mpr (wp.pure.mpr (.inl ⟨rfl, k + 1, ?_, ?_⟩))))
      · exact h.add hn (hs'.setMem (List.mem_of_getElem? hget) fun a ha => if_neg ha) hget
          fun _ _ hu => hu.addPtab
      · dsimp only
        omega

theorem Tabled.mapLoop (h : Tabled s₀ s d n) (ha : Above a.toNat) (hal : a.toNat % 4096 = 0)
    (hlast : last.toNat % 4096 = 0) (hle : a.toNat ≤ last.toNat)
    (ht : ∀ va : Word, Range a.toNat (last.toNat + 4096) va.toNat → KernelTable (PDX va)) :
    wlp (mapLoop last perm m d a pa) (fun r s' => (¬ r.2 < 0 ∧ Tabled s₀ s' r.1 n) ∨
      (r.2 < 0 ∧ ¬ Available s₀ n)) s := by
  induction m generalizing a pa d s with
  | zero => exact .failure
  | succ m ih =>
    unfold Vm.mapLoop
    refine .seq (h.walkpgdir hf hn (ht a ⟨Nat.le_refl _, by omega⟩)) fun r t hr => ?_
    obtain ⟨hr, ht'⟩ | ⟨hr, hno⟩ := hr
    · rw [if_neg (by simp [hr])]
      split
      · exact .failure
      have hset : Tabled s₀ t (r.1.setPte a (pa ||| perm ||| PTE_P)) n := ht'.setPte ha
      dsimp only
      split
      · exact .pure (.inl ⟨Int.lt_irrefl 0, hset⟩)
      · next hne =>
        obtain ⟨hlt, hnext⟩ := next_of_ne_last hal hlast hle hne
        unfold Above at ha
        refine ih hset (by unfold Above; omega) (by omega) (by omega) fun va hva => ht va ?_
        unfold Range at hva ⊢
        omega
    · rw [if_pos hr]
      exact .pure (.inr ⟨Int.negSucc_lt_zero 0, hno⟩)

theorem Tabled.mapKernel {ks : List Kmap} (h : Tabled s₀ s d n) (hks : ∀ e ∈ ks, Region e) :
    wlp (mapKernel d ks) (fun o s' => (∃ d', o = some d' ∧ Tabled s₀ s' d' n) ∨
      (o = none ∧ ¬ Available s₀ n)) s := by
  induction ks generalizing d s with
  | nil => exact .pure (.inl ⟨d, rfl, h⟩)
  | cons e ks ih =>
    obtain ⟨he, hks⟩ := List.forall_mem_cons.mp hks
    have hlast : (PGROUNDDOWN (e.p + (e.e - e.p) - 1)).toNat = pageDown (e.e - 1).toNat := by
      rw [toNat_PGROUNDDOWN, show e.p + (e.e - e.p) - 1 = e.e - 1 by bv_omega]
    have hal := he.aligned
    have hle := he.le
    unfold Vm.mapKernel mappages
    rw [PGROUNDDOWN_of_aligned hal]
    refine .seq (h.mapLoop hf hn he.above hal ?_ ?_ ?_) fun r t hr => ?_
    · rw [hlast]
      exact Nat.mul_mod_left ..
    · rw [hlast]
      unfold pageDown
      omega
    · rw [hlast]
      exact he.tables
    obtain ⟨hr, ht⟩ | ⟨hr, hno⟩ := hr
    · rw [if_neg hr]
      exact ih ht hks
    · rw [if_pos hr]
      exact .pure (.inr ⟨rfl, hno⟩)

end Tables

theorem Regions.mem {ks : List Kmap} {e : Kmap} (h : Regions n ks) (he : e ∈ ks) : Region e := by
  induction ks generalizing n with
  | nil => cases he
  | cons x ks ih =>
    obtain ⟨-, hx, hks⟩ := h
    obtain rfl | he := List.mem_cons.mp he
    · exact hx
    · exact ih hks he

theorem kernelTable_of_mem {i : BitVec 10} (h : i ∈ kernelTables) : KernelTable i := by
  obtain ⟨n, hn, rfl⟩ := List.mem_map.mp h
  rw [List.mem_append, List.mem_range, List.mem_range'_1] at hn
  unfold KernelTable
  rw [BitVec.toNat_ofNat]
  omega

theorem missing_of_isSome (h : ∀ i, KernelTable i → (d.pde i).isSome) : missing d = 0 := by
  refine List.countP_eq_zero.mpr fun i hi => ?_
  rw [← Option.not_isSome, h i (kernelTable_of_mem hi)]
  exact Bool.false_ne_true

/-- The kernel's part of an address space takes thirteen pages: one for the
directory and twelve for its tables. -/
theorem setupkvm_built (hf : ∀ v ∈ s.freelist, Frame img v) (hn : s.freelist.Nodup) :
    wp (setupkvm img) (fun o s' =>
      (o = none ∧ ¬ Available s 13 ∧ Pool img False 0 s') ∨
      ∃ d, o = some d ∧ Layout img d (fun _ => False) ∧ Built s s' d 13) s := by
  have hpool : Pool img False (0 + 13) s := ⟨hf, False.elim, False.elim⟩
  have hdrawn : wlp (setupkvm img) (fun o s' => (∃ d, o = some d ∧ Tabled s s' d 13) ∨
      (o = none ∧ ¬ Available s 13)) s := by
    unfold setupkvm
    refine .seq (.of_wp ((Drawn.refl s).kalloc hf)) fun v s' hv => ?_
    obtain ⟨-, ⟨hz, -, hno⟩ | ⟨hz, hget, hs'⟩⟩ := hv
    · rw [if_pos hz]
      exact .pure (.inr ⟨rfl, not_available hno (by decide)⟩)
    · rw [if_neg hz]
      have hnone {u : Use} {w : Word} (hu : Pgdir.Uses ⟨v, fun _ => none⟩ u w) : u = .dir ∧ w = v := by
        cases hu with
        | dir => exact ⟨rfl, rfl⟩
        | table i pgtab hi => cases hi
        | page va pte _ hpte => simp [Pgdir.pte] at hpte
      have hmem := List.mem_of_getElem? hget
      refine .seq (.of_wp (wp.modify.mpr ?_)) fun _ t ht =>
        Tabled.mapKernel hf hn ht fun e he => (kmap_regions img).mem he
      refine ⟨1, ⟨hs'.setMem hmem fun a ha => if_neg ha, fun u w hu => ?_, fun u u' w hu hu' => ?_⟩,
        (rfl : 1 + missing ⟨v, fun _ => none⟩ = 13)⟩
      · rw [(hnone hu).2, List.take_add_one, hget]
        exact List.mem_cons_self
      · rw [(hnone hu).1, (hnone hu').1]
  refine (hdrawn.and_wp (setupkvm_wp hpool)).mono ?_
  rintro o s' ⟨⟨d, rfl, k, hb, hk⟩ | ⟨rfl, hno⟩, hp, -, hl⟩
  · have hl := hl d rfl
    rw [missing_of_isSome fun i hi => (hl.isSome i).mpr hi] at hk
    obtain rfl : k = 13 := hk
    exact .inr ⟨d, rfl, hl, hb⟩
  · exact .inl ⟨rfl, hno, hp⟩

end PerrOS.Vm
