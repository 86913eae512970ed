import PerrOS.Vm.Space

/-!
# When the size of a process changes

What `allocuvm` and `deallocuvm` need to return a size other than 0: a growth
stays below `USERTOP`, `kalloc` finds a page for every page of it, and none of
those is mapped yet; a process that shrinks keeps some of its memory.
-/

namespace PerrOS.Vm

open Lib (wp)

variable {img : Image} {d : Pgdir} {a oldsz newsz : Word} {s : Kmem} {S : Nat → Prop} {n m : Nat}

/-- The next `n` calls of `kalloc` find a page. -/
def Available (s : Kmem) (n : Nat) : Prop :=
  n ≤ s.freelist.length ∧ ∀ i, i < n → s.grant (s.calls + i) = true

/-- None of the pages from `lo` up to `hi` is mapped. -/
def Unmapped (d : Pgdir) (lo hi : Nat) : Prop := ∀ b : Word, Range lo hi b.toNat → ¬ d.Mapped b

namespace Available

theorem zero (s : Kmem) : Available s 0 := ⟨Nat.zero_le _, by simp⟩

/-- What `kalloc` finds, and what is left. -/
theorem kalloc_iff {Q : Word → Kmem → Prop} (hf : ∀ v ∈ s.freelist, Frame img v) :
    wp kalloc (fun v s' => v ≠ 0 ∧ Q v s') s ↔
      ∃ v rest, s.freelist = v :: rest ∧ s.grant s.calls = true ∧
        Q v { s with freelist := rest, calls := s.calls + 1 } := by
  cases hg : s.grant s.calls with
  | false =>
    have hrun : kalloc.run s = some (0, { s with calls := s.calls + 1 }) := by
      simp [Vm.kalloc, hg]
    rw [wp.run hrun]
    simp
  | true =>
    cases hl : s.freelist with
    | nil =>
      have hrun : kalloc.run s = some (0, { s with calls := s.calls + 1 }) := by
        simp [Vm.kalloc, hg, hl]
      rw [wp.run hrun]
      simp
    | cons v rest =>
      have hrun : kalloc.run s = some (v, { s with freelist := rest, calls := s.calls + 1 }) := by
        simp [Vm.kalloc, hg, hl]
      rw [wp.run hrun]
      have hv : v ≠ 0 := (hf v (by simp [hl])).ne
      constructor
      · exact fun h => ⟨v, rest, rfl, rfl, h.2⟩
      · rintro ⟨_, _, he, -, hq⟩
        obtain ⟨rfl, rfl⟩ := List.cons.inj he
        exact ⟨hv, hq⟩

theorem succ_iff : Available s (n + 1) ↔ ∃ v rest, s.freelist = v :: rest ∧
    s.grant s.calls = true ∧ Available { s with freelist := rest, calls := s.calls + 1 } n := by
  constructor
  · rintro ⟨hlen, hgrant⟩
    cases hl : s.freelist with
    | nil => simp [hl] at hlen
    | cons v rest =>
      refine ⟨v, rest, rfl, hgrant 0 (Nat.succ_pos n), by simpa [hl] using hlen, fun i hi => ?_⟩
      have := hgrant (i + 1) (by omega)
      rwa [Nat.add_comm i, ← Nat.add_assoc] at this
  · rintro ⟨v, rest, hl, hg, hlen, hgrant⟩
    refine ⟨by simpa [hl] using hlen, fun i hi => ?_⟩
    cases i with
    | zero => exact hg
    | succ i =>
      have := hgrant i (by omega)
      rwa [Nat.add_comm i, ← Nat.add_assoc]

end Available

/-- The first page of a range, then the rest, which an entry written for the
first page leaves alone. -/
theorem unmapped_cons {w : Word} (hal : a.toNat % 4096 = 0) (hlt : a.toNat < m) :
    Unmapped d a.toNat (pageUp m) ↔
      ¬d.Mapped a ∧ Unmapped (d.setPte a w) (a.toNat + 4096) (pageUp m) := by
  have hup : a.toNat + 4096 ≤ pageUp m := by
    unfold pageUp
    omega
  have hother {b : Word} (hb : a.toNat + 4096 ≤ b.toNat) :
      (d.setPte a w).Mapped b ↔ d.Mapped b := by
    rw [Pgdir.Mapped, Pgdir.Mapped, Pgdir.pte_setPte_of_ne (by omega)]
  constructor
  · intro h
    refine ⟨h a ⟨Nat.le_refl _, by omega⟩, fun b hb hm => ?_⟩
    have hlo := hb.1
    exact h b ⟨by omega, hb.2⟩ ((hother hlo).mp hm)
  · rintro ⟨ha, hrest⟩ b hb hm
    have hlo := hb.1
    by_cases hfirst : b.toNat < a.toNat + 4096
    · exact ha ((Pgdir.mapped_congr (by omega)).mp hm)
    · have hlo' := Nat.not_lt.mp hfirst
      exact hrest b ⟨hlo', hb.2⟩ ((hother hlo').mpr hm)

theorem allocLoop_iff (hnew : newsz.toNat ≤ 0xA0000) (hpos : newsz ≠ 0) {as : List Word}
    (has : pages newsz n a = some as) (hal : a.toNat % 4096 = 0) (h : Layout img d S)
    (hf : ∀ v ∈ s.freelist, Frame img v) :
    wp (allocLoop img oldsz newsz d as) (fun r _ => r.2 ≠ 0) s ↔
      Available s ((pageUp newsz.toNat - a.toNat) / 4096) ∧
        Unmapped d a.toNat (pageUp newsz.toNat) := by
  have done {a : Word} {d : Pgdir} {s : Kmem} (ha : ¬a < newsz) (hal : a.toNat % 4096 = 0) :
      wp (allocLoop img oldsz newsz d []) (fun r _ => r.2 ≠ 0) s ↔
        Available s ((pageUp newsz.toNat - a.toNat) / 4096) ∧
          Unmapped d a.toNat (pageUp newsz.toNat) := by
    have hle : pageUp newsz.toNat ≤ a.toNat := by
      have : newsz.toNat ≤ a.toNat := Nat.not_lt.mp ha
      unfold pageUp
      omega
    refine iff_of_true (wp.pure.mpr hpos) ⟨?_, fun b hb => ?_⟩
    · rw [Nat.sub_eq_zero_of_le hle]
      exact .zero s
    · have := hb.1
      have := hb.2
      omega
  induction n generalizing a as d S s with
  | zero =>
    unfold pages at has
    split at has
    · cases has
    · next hlt =>
      cases has
      exact done hlt hal
  | succ n ih =>
    unfold pages at has
    split at has
    case isFalse hlt =>
      cases has
      exact done hlt hal
    case isTrue hlt =>
      obtain ⟨as', has', rfl⟩ := Option.map_eq_some_iff.mp has
      have hnext := toNat_next (by omega) hlt
      have hlt : a.toNat < newsz.toNat := hlt
      have hcount : (pageUp newsz.toNat - a.toNat) / 4096 =
          (pageUp newsz.toNat - (a.toNat + 4096)) / 4096 + 1 := by
        unfold pageUp
        omega
      obtain ⟨pte, hpte⟩ := h.user_pte (a := a) (by omega)
      have hmapped : d.Mapped a ↔ present pte = true := by simp [Pgdir.Mapped, hpte]
      -- the rest of the loop, once `kalloc` has returned `v`
      have rest {v : Word} {t : Kmem} (hv : Frame img v) (ht : ∀ w ∈ t.freelist, Frame img w) :
          wp (do
            memset v 0
            let r ← mappages d a PGSIZE v (PTE_W ||| PTE_U)
            allocLoop img oldsz newsz r.1 as') (fun r _ => r.2 ≠ 0) t ↔
          Available t ((pageUp newsz.toNat - (a.toNat + 4096)) / 4096) ∧
            Unmapped d a.toNat (pageUp newsz.toNat) := by
        rw [unmapped_cons (w := v ||| (PTE_W ||| PTE_U) ||| PTE_P) hal hlt, hmapped,
          mappages_page hal (by omega) hpte, wp.bind, memset, wp.modify]
        by_cases hpres : present pte = true
        · rw [if_pos hpres, wp.bind]
          exact iff_of_false wp.failure fun hc => hc.2.1 hpres
        · rw [if_neg hpres, pure_bind]
          have hset := h.setPte (a := a) (by omega) hv
          have hloop := ih (s := { t with mem := fun b =>
            if (b - v).toNat < PGSIZE.toNat then 0 else t.mem b }) has' (by omega) hset ht
          rw [hnext] at hloop
          refine hloop.trans (and_congr_right fun _ => ?_)
          exact (and_iff_right hpres).symm
      have hstep : wp (allocLoop img oldsz newsz d (a :: as')) (fun r _ => r.2 ≠ 0) s ↔
          wp kalloc (fun v t => v ≠ 0 ∧ wp (do
            memset v 0
            let r ← mappages d a PGSIZE v (PTE_W ||| PTE_U)
            allocLoop img oldsz newsz r.1 as') (fun r _ => r.2 ≠ 0) t) s := by
        rw [Vm.allocLoop, wp.bind]
        refine iff_of_eq (congrArg (wp kalloc · s) (funext₂ fun v t => propext ?_))
        split
        · next hz =>
          refine iff_of_false ?_ fun hc => hc.1 hz
          rw [wp.bind]
          rintro ⟨r, u, -, hr⟩
          exact wp.pure.mp hr rfl
        · next hz => exact (and_iff_right hz).symm
      rw [hstep, Available.kalloc_iff hf, hcount, Available.succ_iff]
      constructor
      · rintro ⟨v, fl, hfl, hg, hw⟩
        have hframe : ∀ w ∈ v :: fl, Frame img w := hfl ▸ hf
        obtain ⟨hav, hun⟩ := (rest (hframe v List.mem_cons_self)
          fun w hw => hframe w (List.mem_cons_of_mem _ hw)).mp hw
        exact ⟨⟨v, fl, hfl, hg, hav⟩, hun⟩
      · rintro ⟨⟨v, fl, hfl, hg, hav⟩, hun⟩
        have hframe : ∀ w ∈ v :: fl, Frame img w := hfl ▸ hf
        exact ⟨v, fl, hfl, hg, (rest (hframe v List.mem_cons_self)
          fun w hw => hframe w (List.mem_cons_of_mem _ hw)).mpr ⟨hav, hun⟩⟩

/-- `allocuvm` for a size that is not below the old one. -/
theorem allocuvm_iff (hle : oldsz ≤ newsz) (hpos : newsz ≠ 0) (h : Layout img d S)
    (hf : ∀ v ∈ s.freelist, Frame img v) :
    wp (allocuvm img d oldsz newsz) (fun r _ => r.2 ≠ 0) s ↔
      newsz ≤ USERTOP ∧
        Available s ((pageUp newsz.toNat - pageUp oldsz.toNat) / 4096) ∧
        Unmapped d (pageUp oldsz.toNat) (pageUp newsz.toNat) := by
  unfold allocuvm
  by_cases htop : newsz ≤ USERTOP
  · have hnew : newsz.toNat ≤ 0xA0000 := htop
    have hold : oldsz.toNat ≤ newsz.toNat := hle
    have hup : (PGROUNDUP oldsz).toNat = pageUp oldsz.toNat := toNat_PGROUNDUP (by omega)
    obtain ⟨as, has⟩ := pages_user hnew (PGROUNDUP oldsz)
    have hal : (PGROUNDUP oldsz).toNat % 4096 = 0 := by
      rw [hup]
      exact Nat.mul_mod_left ..
    rw [if_neg (BitVec.not_lt.mpr htop), if_neg (BitVec.not_lt.mpr hle), wp.bind, wp.lift has,
      allocLoop_iff hnew hpos has hal h hf, hup]
    exact (and_iff_right htop).symm
  · rw [if_pos (BitVec.not_le.mp htop), wp.pure]
    exact iff_of_false (fun hc => hc rfl) fun hc => htop hc.1

/-- `deallocuvm` does not fail, so a size of 0 is one that it was asked for. -/
theorem deallocuvm_iff (hold : oldsz.toNat ≤ 0xA0000) (h : Freeable img d)
    (hf : ∀ v ∈ s.freelist, Frame img v) :
    wp (deallocuvm img d oldsz newsz) (fun r _ => r.2 ≠ 0) s ↔ oldsz ≠ 0 ∧ newsz ≠ 0 := by
  have hs : Pool img False 0 s := ⟨hf, nofun, nofun⟩
  have hret : wp (deallocuvm img d oldsz newsz) _ s := h.deallocuvm hold hs
  unfold deallocuvm at hret ⊢
  by_cases hle : oldsz ≤ newsz
  · rw [if_pos hle, wp.pure]
    refine ⟨fun hne => ⟨hne, ?_⟩, fun hne => hne.1⟩
    rintro rfl
    exact hne (BitVec.le_zero_iff.mp hle)
  · rw [if_neg hle] at hret ⊢
    have hne : oldsz ≠ 0 := by
      rintro rfl
      exact hle (BitVec.le_def.mpr (Nat.zero_le _))
    obtain ⟨as, has⟩ := pages_user hold (PGROUNDUP newsz)
    rw [wp.bind, wp.lift has, wp.bind] at hret ⊢
    obtain ⟨d', s', hrun, -⟩ := hret
    rw [wp.run hrun, wp.pure]
    exact ⟨fun hn => ⟨hne, hn⟩, fun hn => hn.2⟩

end PerrOS.Vm
