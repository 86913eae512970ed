import PerrOS.Vm.Grow

/-!
# Which entries `allocuvm` and `deallocuvm` leave alone

`deallocuvm` clears entries of its range only. `allocuvm` on unmapped pages
maps them all or, where `kalloc` fails, takes back those that it has mapped.
-/

namespace PerrOS.Vm

open Lib (Ensures wp)
open Pgdir (Within)

variable {img : Image} {d d' : Pgdir} {a va oldsz newsz : Word} {s : Kmem} {S T : Nat → Prop}

/-- `d'` has the entries of `d`, except that some of `T` may be zero instead. -/
def Cleared (T : Nat → Prop) (d d' : Pgdir) : Prop :=
  ∀ va, d'.pte va = d.pte va ∨ (T va.toNat ∧ d'.pte va = some 0)

theorem Cleared.refl (T : Nat → Prop) (d : Pgdir) : Cleared T d d := fun _ => .inl rfl

theorem Cleared.mono (h : Cleared S d d') (hs : ∀ n, S n → T n) : Cleared T d d' := fun va =>
  (h va).imp_right fun hc => ⟨hs _ hc.1, hc.2⟩

theorem Cleared.trans {d'' : Pgdir} (h : Cleared T d d') (h' : Cleared T d' d'') :
    Cleared T d d'' := by
  intro va
  rcases h' va with he | hz
  · rw [he]
    exact h va
  · exact .inr hz

theorem Cleared.setPte {pte : Word} (hpte : d.pte a = some pte) :
    Cleared (fun n => n / 4096 = a.toNat / 4096) d (d.setPte a 0) := by
  intro va
  by_cases he : a.toNat / 4096 = va.toNat / 4096
  · exact .inr ⟨he.symm, by rw [← Pgdir.pte_congr he, Pgdir.pte_setPte_self hpte]⟩
  · exact .inl (Pgdir.pte_setPte_of_ne he)

theorem deallocLoop_cleared (as : List Word) (d : Pgdir) : Ensures (deallocLoop img d as)
    (Cleared (fun n => ∃ a ∈ as, n / 4096 = a.toNat / 4096) d) := by
  induction as generalizing d with
  | nil => exact .pure (.refl _ _)
  | cons a as ih =>
    have rest (d : Pgdir) : Ensures (deallocLoop img d as)
        (Cleared (fun n => ∃ b ∈ a :: as, n / 4096 = b.toNat / 4096) d) :=
      (ih d).mono fun d' hd => hd.mono fun n hn =>
        let ⟨b, hb, he⟩ := hn
        ⟨b, List.mem_cons_of_mem a hb, he⟩
    unfold deallocLoop
    split
    · next pte hpte =>
      refine .ite (fun _ => .ite (fun _ => .failure) fun _ => .seq fun _ => ?_) fun _ => rest d
      refine (rest _).mono fun d' hd => .trans ?_ hd
      exact (Cleared.setPte hpte).mono fun n hn => ⟨a, List.mem_cons_self, hn⟩
    · exact rest d

/-- `deallocuvm` clears entries of the pages from `newsz` up to `oldsz` only. -/
theorem deallocuvm_cleared (hl : oldsz.toNat + 4096 ≤ 2 ^ 32) :
    Ensures (deallocuvm img d oldsz newsz) fun r =>
      Cleared (Range (pageUp newsz.toNat) (pageUp oldsz.toNat)) d r.1 := by
  unfold deallocuvm
  refine .ite (fun _ => .pure (.refl _ _)) fun hle => ?_
  have hlt : newsz.toNat < oldsz.toNat := Nat.not_le.mp hle
  have hup : (PGROUNDUP newsz).toNat = pageUp newsz.toNat := toNat_PGROUNDUP (by omega)
  refine .bind (.lift fun as has => has) fun as has => ?_
  refine .bind (deallocLoop_cleared as d) fun d' hd => .pure (hd.mono ?_)
  rintro n ⟨b, hb, hn⟩
  obtain ⟨hr, hm⟩ := (mem_pages hl has).mp hb
  rw [hup] at hr hm
  unfold Range pageUp at *
  omega

/-- `allocuvm` at work on the unmapped pages `T` of `d`. -/
structure Filling (T : Nat → Prop) (d d' : Pgdir) : Prop where
  zero : ∀ va : Word, T va.toNat → d.pte va = some 0
  other : ∀ va : Word, ¬ T va.toNat → d'.pte va = d.pte va
  pages : ∀ va : Word, T va.toNat → d'.pte va = some 0 ∨ d'.Mapped va

theorem Filling.refl (h : ∀ va : Word, T va.toNat → d.pte va = some 0) : Filling T d d :=
  ⟨h, fun _ _ => rfl, fun va hva => .inl (h va hva)⟩

theorem Filling.setPte {w : Word} (h : Filling T d d') (hw : present w)
    (hT : ∀ n, n / 4096 = a.toNat / 4096 → T n) : Filling T d (d'.setPte a w) := by
  obtain ⟨pte, hpte⟩ : ∃ pte, d'.pte a = some pte := by
    rcases h.pages a (hT _ rfl) with hz | ⟨pte, hpte, -⟩
    · exact ⟨0, hz⟩
    · exact ⟨pte, hpte⟩
  refine ⟨h.zero, fun va hva => ?_, fun va hva => ?_⟩
  · have hne : a.toNat / 4096 ≠ va.toNat / 4096 := fun he => hva (hT _ he.symm)
    rw [Pgdir.pte_setPte_of_ne hne]
    exact h.other va hva
  · by_cases he : a.toNat / 4096 = va.toNat / 4096
    · refine .inr ⟨w, ?_, hw⟩
      rw [← Pgdir.pte_congr he, Pgdir.pte_setPte_self hpte]
    · rw [Pgdir.Mapped, Pgdir.pte_setPte_of_ne he]
      exact h.pages va hva

/-- Clearing what has been mapped gives the entries back as they were. -/
theorem Filling.undo {d'' : Pgdir} (h : Filling T d d') (hc : Cleared T d' d'')
    (hun : ∀ va : Word, T va.toNat → ¬ d''.Mapped va) (va : Word) : d''.pte va = d.pte va := by
  by_cases hva : T va.toNat
  · rw [h.zero va hva]
    rcases hc va with he | ⟨-, hz⟩
    · rcases h.pages va hva with hz | ⟨pte, hpte, hpres⟩
      · rw [he, hz]
      · exact absurd ⟨pte, he.trans hpte, hpres⟩ (hun va hva)
    · exact hz
  · rcases hc va with he | ⟨ht, -⟩
    · rw [he, h.other va hva]
    · exact absurd ht hva

/-- The entries are as they were, or those of `T` have been filled. -/
def Settled (T : Nat → Prop) (newsz : Word) (d : Pgdir) (r : Pgdir × Word) : Prop :=
  (r.2 = 0 ∧ ∀ va, r.1.pte va = d.pte va) ∨ (r.2 = newsz ∧ Filling T d r.1)

theorem present_or (w : Word) : present (w ||| PTE_P) := by
  have hbit : (w ||| PTE_P) &&& PTE_P ≠ 0 := by
    intro hz
    have h0 := congrArg (·.getLsbD 0) hz
    simp [PTE_P] at h0
  simpa [present] using hbit

theorem allocLoop_settled (hnew : newsz.toNat ≤ 0xA0000) {as : List Word}
    (has : ∀ a ∈ as, a.toNat % 4096 = 0 ∧
      ∀ n, Range a.toNat (a.toNat + 4096) n → Range (pageUp oldsz.toNat) (pageUp newsz.toNat) n)
    (h : Filling (Range (pageUp oldsz.toNat) (pageUp newsz.toNat)) d d') :
    Ensures (allocLoop img oldsz newsz d' as)
      (Settled (Range (pageUp oldsz.toNat) (pageUp newsz.toNat)) newsz d) := by
  induction as generalizing d' with
  | nil => exact .pure (.inr ⟨rfl, h⟩)
  | cons a as ih =>
    obtain ⟨⟨hal, ha⟩, has⟩ := List.forall_mem_cons.mp has
    have hr := ha a.toNat ⟨Nat.le_refl _, by omega⟩
    have hlt : oldsz.toNat < newsz.toNat := by
      unfold Range pageUp at hr
      omega
    unfold allocLoop
    refine .seq fun mem => .ite (fun _ => ?_) fun _ => .seq fun _ => ?_
    · -- everything in the range is unmapped again
      have hall : d'.Within fun _ => True := fun _ _ => trivial
      refine .bind ((deallocuvm_within (by omega) hall).and (deallocuvm_cleared (by omega)))
        fun r hd => .pure (.inl ⟨rfl, h.undo hd.2 fun va hva hm => ?_⟩)
      rcases hd.1 with ⟨hle, -⟩ | ⟨-, -, hw⟩
      · exact Nat.not_lt.mpr hle hlt
      · exact (hw va hm).2 hva
    · have ha' : a.toNat < 0xA0000 := by
        unfold Range pageUp at hr
        omega
      have hset (pa perm : Word) := h.setPte (a := a) (w := pa ||| perm ||| PTE_P) (present_or _)
        fun n hn => ha n (by unfold Range; omega)
      rcases h.pages a hr with hz | ⟨pte, hpte, hpres⟩
      · rw [mappages_page hal ha' hz, if_neg (by simp [present]), pure_bind]
        exact ih has (hset _ _)
      · rw [mappages_page hal ha' hpte, if_pos hpres]
        exact .bind (P := fun _ => False) .failure fun _ hf => hf.elim

/-- `allocuvm` on unmapped pages maps them all or none. -/
theorem allocuvm_settled (hle : oldsz ≤ newsz)
    (hzero : ∀ va : Word, Range (pageUp oldsz.toNat) (pageUp newsz.toNat) va.toNat →
      va.toNat < 0xA0000 → d.pte va = some 0) :
    Ensures (allocuvm img d oldsz newsz)
      (Settled (Range (pageUp oldsz.toNat) (pageUp newsz.toNat)) newsz d) := by
  unfold allocuvm
  refine .ite (fun _ => .pure (.inl ⟨rfl, fun _ => rfl⟩)) fun htop => ?_
  rw [if_neg (BitVec.not_lt.mpr hle)]
  have hnew : newsz.toNat ≤ 0xA0000 := Nat.not_lt.mp htop
  have hold : oldsz.toNat ≤ newsz.toNat := hle
  have hup : (PGROUNDUP oldsz).toNat = pageUp oldsz.toNat := toNat_PGROUNDUP (by omega)
  refine .bind (.lift fun as has => has) fun as has => ?_
  refine allocLoop_settled hnew (fun a ha => ?_) (.refl fun va hva => hzero va hva ?_)
  · obtain ⟨hr, hm⟩ := (mem_pages (by omega) has).mp ha
    rw [hup] at hr hm
    unfold Range pageUp at *
    exact ⟨by omega, fun n hn => by omega⟩
  · unfold Range pageUp at hva
    omega

end PerrOS.Vm
