import PerrOS.Lib.Ensures
import PerrOS.Vm.Uvm

/-!
# What the functions of `vm.c` leave mapped

An upper bound for each: the pages that may be mapped afterwards, for every
content of the free list and every pattern of failures of `kalloc`.
-/

namespace PerrOS.Vm

open Lib (Ensures)
open Pgdir (Within)

variable {img : Image} {pgdir : Pgdir} {va a last perm pa limit oldsz newsz : Word}
variable {S T : Nat → Prop}

/-- The addresses from `lo` up to `hi`. -/
def Range (lo hi n : Nat) : Prop := lo ≤ n ∧ n < hi

-- ---------------------------------------------------------------------------
-- Loops over pages
-- ---------------------------------------------------------------------------

theorem toNat_next (hl : limit.toNat + 4096 ≤ 2 ^ 32) (ha : a < limit) :
    (a + PGSIZE).toNat = a.toNat + 4096 := by
  have : a.toNat < limit.toNat := ha
  rw [BitVec.toNat_add, toNat_PGSIZE, Nat.mod_eq_of_lt (by omega)]

/-- Another page follows one that is not the last. -/
theorem next_of_ne_last (ha : a.toNat % 4096 = 0) (hlast : last.toNat % 4096 = 0)
    (hle : a.toNat ≤ last.toNat) (hne : a ≠ last) :
    a.toNat + 4096 ≤ last.toNat ∧ (a + PGSIZE).toNat = a.toNat + 4096 := by
  have hlt : a.toNat ≠ last.toNat := fun h => hne (BitVec.eq_of_toNat_eq h)
  have := last.isLt
  refine ⟨by omega, ?_⟩
  rw [BitVec.toNat_add, toNat_PGSIZE, Nat.mod_eq_of_lt (by omega)]

/-- The loop visits the addresses a whole number of pages from `a` on, below
the limit. -/
theorem mem_pages (hl : limit.toNat + 4096 ≤ 2 ^ 32) {n : Nat} {as : List Word}
    (h : pages limit n a = some as) {b : Word} :
    b ∈ as ↔ Range a.toNat limit.toNat b.toNat ∧ b.toNat % 4096 = a.toNat % 4096 := by
  have done {a : Word} (ha : ¬ a < limit) : b ∈ [] ↔
      Range a.toNat limit.toNat b.toNat ∧ b.toNat % 4096 = a.toNat % 4096 := by
    have ha : ¬ a.toNat < limit.toNat := ha
    simp only [List.not_mem_nil, Range, false_iff]
    omega
  induction n generalizing a as with
  | zero =>
    unfold pages at h
    split at h
    · cases h
    · next ha =>
      cases h
      exact done ha
  | succ n ih =>
    unfold pages at h
    split at h
    · next ha =>
      obtain ⟨as', h', rfl⟩ := Option.map_eq_some_iff.mp h
      have hnext := toNat_next hl ha
      have ha : a.toNat < limit.toNat := ha
      have hih := ih h'
      rw [hnext] at hih
      refine List.mem_cons.trans ((or_congr_right hih).trans ?_)
      rw [← BitVec.toNat_inj]
      unfold Range
      omega
    · next ha =>
      cases h
      exact done ha

-- ---------------------------------------------------------------------------
-- Mapping
-- ---------------------------------------------------------------------------

theorem walkpgdir_within (h : pgdir.Within S) :
    Ensures (walkpgdir pgdir va) fun r => r.1.Within S := by
  unfold walkpgdir
  split
  · exact .pure h
  · refine .seq fun pgtab => .ite (fun _ => .pure h) fun _ => ?_
    exact .seq fun _ => .pure (h.addPtab pgtab)

/-- The loop of `mappages` maps pages from `a` up to `last`. -/
theorem mapLoop_within (ha : a.toNat % 4096 = 0) (hlast : last.toNat % 4096 = 0)
    (hle : a.toNat ≤ last.toNat) (hS : ∀ n, Range a.toNat (last.toNat + 4096) n → S n)
    (n : Nat) (h : pgdir.Within S) (pa : Word) :
    Ensures (mapLoop last perm n pgdir a pa) fun r => r.1.Within S := by
  induction n generalizing a pgdir pa with
  | zero => exact .failure
  | succ n ih =>
    unfold mapLoop
    refine .bind (walkpgdir_within h) fun r hr => .ite (fun _ => .pure hr) fun _ => ?_
    refine .ite (fun _ => .failure) fun _ => ?_
    have hset : (r.1.setPte a (pa ||| perm ||| PTE_P)).Within S := by
      refine hr.setPte fun n hn => hS n ?_
      unfold Range
      omega
    refine .ite (fun _ => .pure hset) fun hne => ?_
    obtain ⟨hlt, hnext⟩ := next_of_ne_last ha hlast hle hne
    refine ih (by omega) (by omega) (fun n hn => hS n ?_) hset _
    unfold Range at hn ⊢
    omega

/-- `mappages` of the bytes from the start of a page up to `e`. -/
theorem mappages_within {e : Word} (ha : a.toNat % 4096 = 0) (hle : a.toNat ≤ (e - 1).toNat)
    (hS : ∀ n, Range a.toNat (pageDown (e - 1).toNat + 4096) n → S n) (h : pgdir.Within S) :
    Ensures (mappages pgdir a (e - a) pa perm) fun r => r.1.Within S := by
  have hdown : PGROUNDDOWN a = a := by
    apply BitVec.eq_of_toNat_eq
    rw [toNat_PGROUNDDOWN]
    unfold pageDown
    omega
  have hlast : (PGROUNDDOWN (a + (e - a) - 1)).toNat = pageDown (e - 1).toNat := by
    rw [toNat_PGROUNDDOWN, show a + (e - a) - 1 = e - 1 by bv_omega]
  unfold mappages
  rw [hdown]
  refine mapLoop_within ha ?_ ?_ (fun n hn => hS n ?_) _ h pa
  · rw [hlast]
    exact Nat.mul_mod_left ..
  · rw [hlast]
    unfold pageDown
    omega
  · rwa [hlast] at hn

theorem mappages_page_within (ha : a.toNat % 4096 = 0) (hlt : a.toNat + 4096 < 2 ^ 32)
    (hS : ∀ n, Range a.toNat (a.toNat + 4096) n → S n) (h : pgdir.Within S) :
    Ensures (mappages pgdir a PGSIZE pa perm) fun r => r.1.Within S := by
  have he : (a + PGSIZE - 1).toNat = a.toNat + 4095 := by
    unfold PGSIZE
    bv_omega
  rw [show PGSIZE = a + PGSIZE - a by bv_omega]
  refine mappages_within ha (by omega) (fun n hn => hS n ?_) h
  rw [he] at hn
  unfold Range pageDown at *
  omega

-- ---------------------------------------------------------------------------
-- Deallocation
-- ---------------------------------------------------------------------------

theorem deallocLoop_within {as : List Word} (h : pgdir.Within S) :
    Ensures (deallocLoop img pgdir as) fun d =>
      d.Within fun n => S n ∧ ∀ a ∈ as, n / 4096 ≠ a.toNat / 4096 := by
  induction as generalizing pgdir S with
  | nil => exact .pure (h.mono fun n hn => ⟨hn, by simp⟩)
  | cons a as ih =>
    -- whatever the entry of `a` is, it is not present afterwards
    have absent (hp : ∀ p, pgdir.pte a = some p → present p = false) :
        pgdir.Within fun n => S n ∧ n / 4096 ≠ a.toNat / 4096 := by
      rintro b ⟨p, hb, hpres⟩
      refine ⟨h b ⟨p, hb, hpres⟩, fun he => ?_⟩
      rw [Pgdir.pte_congr he] at hb
      simp [hp p hb] at hpres
    have rest {d : Pgdir} (hd : d.Within fun n => S n ∧ n / 4096 ≠ a.toNat / 4096) :
        Ensures (deallocLoop img d as) fun d =>
          d.Within fun n => S n ∧ ∀ b ∈ a :: as, n / 4096 ≠ b.toNat / 4096 := by
      refine (ih hd).mono fun d hd => hd.mono ?_
      rintro n ⟨⟨hn, hna⟩, hnas⟩
      exact ⟨hn, List.forall_mem_cons.mpr ⟨hna, hnas⟩⟩
    unfold deallocLoop
    split
    · next p hp =>
      refine .ite (fun _ => ?_) fun hpres => rest (absent ?_)
      · refine .ite (fun _ => .failure) fun _ => .seq fun _ => rest (h.clear hp)
      · intro p' hp'
        obtain rfl : p = p' := by simpa [hp] using hp'
        simpa using hpres
    · next hp => exact rest (absent (by simp [hp]))

/-- `deallocuvm` unmaps the pages that start from `newsz` up to `oldsz`. -/
theorem deallocuvm_within (hl : oldsz.toNat + 4096 ≤ 2 ^ 32) (h : pgdir.Within S) :
    Ensures (deallocuvm img pgdir oldsz newsz) fun r =>
      (oldsz ≤ newsz ∧ r = (pgdir, oldsz)) ∨
      (newsz < oldsz ∧ r.2 = newsz ∧
        r.1.Within fun n => S n ∧ ¬ Range (pageUp newsz.toNat) (pageUp oldsz.toNat) n) := by
  unfold deallocuvm
  refine .ite (fun hle => .pure (.inl ⟨hle, rfl⟩)) fun hle => ?_
  have hlt : newsz.toNat < oldsz.toNat := Nat.not_le.mp hle
  have hup : (PGROUNDUP newsz).toNat = pageUp newsz.toNat := toNat_PGROUNDUP (by omega)
  refine .bind (.lift fun as has => has) fun as has => ?_
  refine .bind (deallocLoop_within h) fun d hd => .pure (.inr ⟨hlt, rfl, hd.mono ?_⟩)
  rintro n ⟨hn, hout⟩
  refine ⟨hn, fun hr => ?_⟩
  -- the page of `n` starts inside the range, so the loop visited it
  have hstart : n / 4096 * 4096 < 2 ^ 32 := by
    unfold Range pageUp at hr
    omega
  refine hout (BitVec.ofNat 32 (n / 4096 * 4096)) ((mem_pages hl has).mpr ?_) ?_
  · rw [BitVec.toNat_ofNat, Nat.mod_eq_of_lt hstart, hup]
    unfold Range pageUp at hr ⊢
    omega
  · rw [BitVec.toNat_ofNat, Nat.mod_eq_of_lt hstart]
    omega

-- ---------------------------------------------------------------------------
-- Allocation
-- ---------------------------------------------------------------------------

/-- The loop of `allocuvm` over pages of `T`; where it runs out of memory it
unmaps all of `T` again. -/
theorem allocLoop_within {as : List Word} (hl : newsz.toNat + 4096 ≤ 2 ^ 32)
    (hT : ∀ n, T n → Range (pageUp oldsz.toNat) (pageUp newsz.toNat) n)
    (has : ∀ a ∈ as, a.toNat % 4096 = 0 ∧ ∀ n, Range a.toNat (a.toNat + 4096) n → T n)
    (h : pgdir.Within fun n => S n ∨ T n) :
    Ensures (allocLoop img oldsz newsz pgdir as) fun r =>
      (r.2 = 0 ∧ r.1.Within S) ∨ (r.2 = newsz ∧ r.1.Within fun n => S n ∨ T n) := by
  induction as generalizing pgdir with
  | nil => exact .pure (.inr ⟨rfl, h⟩)
  | cons a as ih =>
    obtain ⟨ha, has⟩ := List.forall_mem_cons.mp has
    have hr := hT _ (ha.2 a.toNat ⟨Nat.le_refl _, by omega⟩)
    unfold Range pageUp at hr
    unfold allocLoop
    refine .seq fun mem => .ite (fun _ => ?_) fun _ => .seq fun _ => ?_
    · refine .bind (deallocuvm_within hl h) fun r hd => .pure (.inl ⟨rfl, ?_⟩)
      rcases hd with ⟨hle, -⟩ | ⟨-, -, hd⟩
      · have hle : newsz.toNat ≤ oldsz.toNat := hle
        omega
      · exact hd.mono fun n hn => hn.1.resolve_right fun ht => hn.2 (hT n ht)
    · refine .bind (mappages_page_within ha.1 (by omega) (fun n hn => .inr (ha.2 n hn)) h)
        fun r hr => ih has hr

/-- `allocuvm` maps pages of the range it was asked for, or else none. -/
theorem allocuvm_within (h : pgdir.Within S) :
    Ensures (allocuvm img pgdir oldsz newsz) fun r =>
      (r.2 = 0 ∧ r.1.Within S) ∨ (newsz < oldsz ∧ r = (pgdir, oldsz)) ∨
      (r.2 = newsz ∧ oldsz ≤ newsz ∧ r.1.Within fun n =>
        S n ∨ Range (pageUp oldsz.toNat) (pageUp newsz.toNat) n) := by
  unfold allocuvm
  refine .ite (fun _ => .pure (.inl ⟨rfl, h⟩)) fun htop => ?_
  refine .ite (fun hlt => .pure (.inr (.inl ⟨hlt, rfl⟩))) fun hle => ?_
  have htop : newsz.toNat ≤ 0xA0000 := Nat.not_lt.mp htop
  have hle : oldsz.toNat ≤ newsz.toNat := Nat.not_lt.mp hle
  have hup : (PGROUNDUP oldsz).toNat = pageUp oldsz.toNat := toNat_PGROUNDUP (by omega)
  refine .bind (.lift fun as has => has) fun as has => ?_
  have hpage {a : Word} (ha : a ∈ as) : a.toNat % 4096 = 0 ∧
      Range (pageUp oldsz.toNat) newsz.toNat a.toNat := by
    obtain ⟨hr, hm⟩ := (mem_pages (by omega) has).mp ha
    rw [hup] at hr hm
    exact ⟨by unfold pageUp at hm; omega, hr⟩
  refine (allocLoop_within (T := Range (pageUp oldsz.toNat) (pageUp newsz.toNat)) (by omega)
    (fun n hn => hn) (fun a ha => ⟨(hpage ha).1, ?_⟩) (h.mono fun n => .inl)).mono fun r hr => ?_
  · have ⟨hal, hr⟩ := hpage ha
    intro n hn
    unfold Range pageUp at *
    omega
  · rcases hr with hr | hr
    · exact .inl hr
    · exact .inr (.inr ⟨hr.1, hle, hr.2⟩)

-- ---------------------------------------------------------------------------
-- A new address space
-- ---------------------------------------------------------------------------

/-- Above the user's addresses. -/
def Above (n : Nat) : Prop := 0xA0000 ≤ n

instance : DecidablePred Above := fun n => inferInstanceAs (Decidable (0xA0000 ≤ n))

theorem mapKernel_within {ks : List Kmap}
    (hks : ∀ k ∈ ks, k.p.toNat % 4096 = 0 ∧ Above k.p.toNat ∧ k.p.toNat ≤ (k.e - 1).toNat)
    (h : pgdir.Within Above) :
    Ensures (mapKernel pgdir ks) fun o => ∀ d, o = some d → d.Within Above := by
  induction ks generalizing pgdir with
  | nil => exact .pure fun d hd => Option.some.inj hd ▸ h
  | cons k ks ih =>
    obtain ⟨⟨hp, hk, hle⟩, hks⟩ := List.forall_mem_cons.mp hks
    unfold mapKernel
    refine .bind (mappages_within hp hle (fun n hn => Nat.le_trans hk hn.1) h) fun r hr => ?_
    exact .ite (fun _ => .pure nofun) fun _ => ih hks hr

theorem Image.data_bounds (img : Image) : img.data.toNat % 4096 = 0 ∧
    0x100000 < img.data.toNat ∧ img.data.toNat < 0x1000000 :=
  ⟨img.data_aligned, img.text, img.below⟩

theorem Image.toNat_data_sub (img : Image) : (img.data - 1).toNat = img.data.toNat - 1 := by
  obtain ⟨-, htext, -⟩ := img.data_bounds
  bv_omega

/-- The kernel's text ends with a page. -/
theorem Image.pageDown_data (img : Image) :
    pageDown (img.data - 1).toNat + 4096 = img.data.toNat := by
  obtain ⟨hal, htext, -⟩ := img.data_bounds
  rw [img.toNat_data_sub]
  unfold pageDown
  omega

theorem kmap_above (img : Image) : ∀ k ∈ kmap img,
    k.p.toNat % 4096 = 0 ∧ Above k.p.toNat ∧ k.p.toNat ≤ (k.e - 1).toNat := by
  obtain ⟨hal, htext, hbelow⟩ := img.data_bounds
  have hdata := img.toNat_data_sub
  have htext' : (0x100000 : Word).toNat ≤ (img.data - 1).toNat := by
    rw [hdata]
    exact Nat.le_sub_one_of_lt htext
  have hphys : Above img.data.toNat ∧ img.data.toNat ≤ (PHYSTOP - 1).toNat := by
    rw [show (PHYSTOP - 1).toNat = 0xFFFFFF by decide]
    unfold Above
    omega
  unfold kmap
  simp only [List.forall_mem_cons]
  exact ⟨by decide, ⟨by decide, by decide, htext'⟩, ⟨hal, hphys⟩, by decide, by simp⟩

theorem setupkvm_within : Ensures (setupkvm img) fun o => ∀ d, o = some d → d.Within Above := by
  unfold setupkvm
  refine .seq fun frame => .ite (fun _ => .pure nofun) fun _ => .seq fun _ => ?_
  refine mapKernel_within (kmap_above img) ?_
  rintro va ⟨p, hp, -⟩
  simp [Pgdir.pte] at hp

theorem copyLoop_within {d : Pgdir} {is : List Word}
    (his : ∀ i ∈ is, i.toNat % 4096 = 0 ∧ i.toNat + 4096 < 2 ^ 32 ∧
      ∀ n, Range i.toNat (i.toNat + 4096) n → S n) (h : d.Within S) :
    Ensures (copyLoop pgdir d is) fun r => r.1.Within S := by
  induction is generalizing d with
  | nil => exact .pure h
  | cons i is ih =>
    obtain ⟨⟨hi, hlt, hS⟩, his⟩ := List.forall_mem_cons.mp his
    unfold copyLoop
    split
    · exact .failure
    refine .ite (fun _ => .failure) fun _ => .seq fun mem => .ite (fun _ => .pure h) fun _ => ?_
    refine .seq fun _ => .bind (mappages_page_within hi hlt hS h) fun r hr => ?_
    exact .ite (fun _ => .pure hr) fun _ => ih his hr

/-- The copy has the heap below `sz`, the stack from `stackSz` on, and the
kernel. -/
theorem copyuvm_within {sz stackSz : Word} (hsz : sz.toNat ≤ 0xA0000)
    (hal : stackSz.toNat % 4096 = 0) :
    Ensures (copyuvm img pgdir sz stackSz) fun o => ∀ d, o = some d → d.Within fun n =>
      n < pageUp sz.toNat ∨ stackSz.toNat ≤ n ∨ Above n := by
  unfold copyuvm
  refine .bind setupkvm_within fun o ho => ?_
  cases o with
  | none => exact .pure nofun
  | some d =>
    have hd : d.Within fun n => n < pageUp sz.toNat ∨ stackSz.toNat ≤ n ∨ Above n :=
      (ho d rfl).mono fun n hn => .inr (.inr hn)
    refine .bind (.lift fun as has => has) fun heap hheap => ?_
    refine .bind (copyLoop_within (fun i hi => ?_) hd) fun r hr => ?_
    · obtain ⟨hrange, hm⟩ := (mem_pages (by omega) hheap).mp hi
      rw [toNat_PGSIZE] at hrange hm
      unfold Range pageUp at *
      exact ⟨by omega, by omega, fun n hn => .inl (by omega)⟩
    refine .ite (fun _ => .seq fun _ => .pure nofun) fun _ => ?_
    refine .bind (.lift fun as has => has) fun stack hstack => ?_
    refine .bind (copyLoop_within (fun i hi => ?_) hr) fun r hr => ?_
    · obtain ⟨hrange, hm⟩ := (mem_pages (by decide) hstack).mp hi
      rw [toNat_USERTOP] at hrange
      unfold Range at *
      exact ⟨by omega, by omega, fun n hn => .inr (.inl (by omega))⟩
    refine .ite (fun _ => .seq fun _ => .pure nofun) fun _ => .pure ?_
    rintro d' ⟨⟩
    exact hr

end PerrOS.Vm
