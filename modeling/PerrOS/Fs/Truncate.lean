import PerrOS.Fs.Contents

/-!
# Freeing a file

`itrunc` frees every block of an inode once, and no other block: `bfree` never
finds a block that is not in use. The block of addresses is read before any of
the blocks it names is freed, and freed last.
-/

namespace PerrOS.Fs

open Lib
open Function (update)

variable {sb : Superblock} {d d' : Disk} {inode : Nat → Inode} {n nb b : Nat} {ip ip' : Inode}

/-- The slots `ks` are emptied. -/
def without {K : Type} [DecidableEq K] (slot : K → Word) (ks : List K) (k : K) : Word :=
  if k ∈ ks then 0 else slot k

theorem without_nil {K : Type} [DecidableEq K] (slot : K → Word) : without slot [] = slot :=
  funext fun _ => if_neg List.not_mem_nil

theorem without_cons {K : Type} [DecidableEq K] (slot : K → Word) (k : K) (ks : List K) :
    without (update slot k 0) ks = without slot (k :: ks) := by
  funext k'
  unfold without
  by_cases hk : k' = k
  · subst hk
    rw [Function.update_self, if_pos List.mem_cons_self]
    exact ite_self _
  · rw [Function.update_of_ne hk]
    simp only [List.mem_cons, hk, false_or]

theorem without_append {K : Type} [DecidableEq K] (slot : K → Word) (ks ks' : List K) :
    without (without slot ks) ks' = without slot (ks ++ ks') := by
  funext k
  unfold without
  by_cases hk : k ∈ ks
  · rw [if_pos hk, if_pos (List.mem_append_left _ hk)]
    exact ite_self _
  · rw [if_neg hk]
    simp only [List.mem_append, hk, false_or]

/-- The blocks in the slots `ks` have been freed. -/
structure Freed {K : Type} [DecidableEq K] (sb : Superblock) (d : Disk) (slot : K → Word)
    (ks : List K) (d' : Disk) : Prop where
  formatted : Formatted sb d'
  owned : Owned sb d' (without slot ks)
  low : ∀ b < sb.bitmap, d'.block b = d.block b
  kept : ∀ k, slot k ≠ 0 → k ∉ ks → d'.block (slot k).toNat = d.block (slot k).toNat

namespace Freed

variable {K : Type} [DecidableEq K] {slot : K → Word} {ks ks' : List K}

theorem nil (hf : Formatted sb d) (ho : Owned sb d slot) : Freed sb d slot [] d where
  formatted := hf
  owned := by rwa [without_nil]
  low _ _ := rfl
  kept _ _ _ := rfl

theorem append {d1 : Disk} (h : Freed sb d slot ks d1)
    (h' : Freed sb d1 (without slot ks) ks' d') : Freed sb d slot (ks ++ ks') d' where
  formatted := h'.formatted
  owned := by
    rw [← without_append]
    exact h'.owned
  low b hb := by rw [h'.low b hb, h.low b hb]
  kept k hk hmem := by
    have hks : k ∉ ks := fun hin => hmem (List.mem_append_left _ hin)
    have he : without slot ks k = slot k := if_neg hks
    have := h'.kept k (by rwa [he]) fun hin => hmem (List.mem_append_right _ hin)
    rw [he] at this
    rw [this, h.kept k hk hks]

theorem single (hf : Formatted sb d) (ho : Owned sb d slot) {k : K} (hk : slot k ≠ 0) :
    Freed sb d slot [k] (d.release sb (slot k).toNat) := by
  obtain ⟨hlo, hhi⟩ := ho.range k hk
  have hb (b : Nat) (hb : b < sb.bitmap ∨ sb.data ≤ b) (hne : b ≠ (slot k).toNat) :
      (d.release sb (slot k).toNat).block b = d.block b := by
    rw [Disk.release, Disk.block_unmark hhi hb, Disk.set_of_ne _ hne]
  have := lt_bitmap sb
  have := bitmap_lt_data sb
  refine ⟨(hf.set (by omega) _).unmark _, ?_, fun b hlt => hb b (.inl hlt) (by omega),
    fun k' hk' hmem => hb _ (.inr (ho.range k' hk').1) fun he => ?_⟩
  · rw [← without_cons, without_nil]
    exact ho.release hk
  · exact hmem (List.mem_singleton.mpr (ho.inj k' k (BitVec.eq_of_toNat_eq he) hk'))

end Freed

/-- A loop that frees the blocks in some slots. -/
theorem bfreeEach_outcome {K : Type} [DecidableEq K] {slot : K → Word} {E : Fault → Disk → Prop}
    (hf : Formatted sb d) (ho : Owned sb d slot) (ks : List K) (hnodup : ks.Nodup) :
    Outcome (bfreeEach (ks.map slot)) (fun _ d' => Freed sb d slot ks d') E d := by
  induction ks generalizing d slot with
  | nil => exact Outcome.pure.mpr (.nil hf ho)
  | cons k ks ih =>
    obtain ⟨hk, hnodup⟩ := List.nodup_cons.mp hnodup
    rw [List.map_cons, bfreeEach]
    by_cases h0 : slot k = 0
    · rw [if_neg (not_not_intro h0)]
      refine (ih hf ho hnodup).imp fun _ d' h => ⟨h.formatted, ?_, h.low, fun k' hk' hmem => ?_⟩
      · rw [← without_cons, ← h0, Function.update_eq_self]
        exact h.owned
      · exact h.kept k' hk' fun hin => hmem (List.mem_cons_of_mem _ hin)
    · rw [if_pos h0]
      obtain ⟨hlo, hhi⟩ := ho.range k h0
      have hsingle := Freed.single hf ho h0
      have howned := hsingle.owned
      have hwithout : without slot [k] = update slot k 0 := by
        rw [← without_cons, without_nil]
      rw [hwithout] at howned
      have hmap : ks.map slot = ks.map (update slot k 0) :=
        List.map_congr_left fun k' hk' =>
          (Function.update_of_ne (ne_of_mem_of_not_mem hk' hk) ..).symm
      rw [Outcome.bind, bfree_outcome hf hlo hhi (ho.busy h0), hmap]
      refine (ih hsingle.formatted howned hnodup).imp fun _ d' h => ?_
      rw [← hwithout] at h
      exact hsingle.append h

-- ---------------------------------------------------------------------------
-- Inodes are written
-- ---------------------------------------------------------------------------

theorem Inode.slot_addrs (h : ip'.addrs = ip.addrs) (d : Disk) (s : Slot) :
    ip'.slot d s = ip.slot d s := by
  have ht : ip'.table = ip.table := congrFun h _
  cases s with
  | table => exact ht
  | data bn => simp only [Inode.slot, Inode.addr, h, ht]

theorem Inode.byte_addrs (h : ip'.addrs = ip.addrs) (d : Disk) (pos : Nat) :
    ip'.byte d pos = ip.byte d pos := by
  have ha (bn : Nat) : ip'.addr d bn = ip.addr d bn := slot_addrs h d (.data bn)
  simp only [Inode.byte, ha]

theorem Mapped.addrs (hm : Mapped ip d nb) (h : ip'.addrs = ip.addrs) : Mapped ip' d nb where
  addr bn := by
    have ha : ip'.addr d bn = ip.addr d bn := Inode.slot_addrs h d (.data bn)
    rw [ha, hm.addr]
  table := by
    have ht : ip'.table = ip.table := congrFun h _
    rw [ht, hm.table]

/-- The fields of an inode other than its blocks. -/
theorem Consistent.addrs (h : Consistent sb d inode) (ip : Inode)
    (ha : ip.addrs = (inode n).addrs) : Consistent sb d (update inode n ip) := by
  have hslots : slots d (update inode n ip) = slots d inode := by
    funext ⟨m, t⟩
    by_cases hm : m = n
    · subst hm
      rw [slots, Function.update_self]
      exact Inode.slot_addrs ha d t
    · rw [slots, Function.update_of_ne hm]
      rfl
  exact ⟨h.formatted, by rw [hslots]; exact h.owned⟩

/-- An inode is written to the disk. -/
theorem Consistent.iupdate (h : Consistent sb d inode) (hn : n < sb.ninodes.toNat) (x : Block) :
    Consistent sb (d.set (IBLOCK n) x) inode ∧
      ∀ m, Untouched d (d.set (IBLOCK n) x) (inode m) := by
  obtain ⟨hone, hlt⟩ := IBLOCK_lt hn
  have := bitmap_lt_data sb
  have hu (m : Nat) : Untouched d (d.set (IBLOCK n) x) (inode m) := fun t ht => by
    have hrange : sb.data ≤ ((inode m).slot d t).toNat := (h.owned.range (m, t) ht).1
    exact Disk.set_of_ne x (by omega)
  refine ⟨⟨h.formatted.set (by omega) x, ?_⟩, hu⟩
  have hslots : slots (d.set (IBLOCK n) x) inode = slots d inode :=
    funext fun k => (hu k.1).slot k.2
  rw [hslots]
  exact h.owned.set_inodes h.formatted hlt x

-- ---------------------------------------------------------------------------
-- itrunc
-- ---------------------------------------------------------------------------

/-- The direct blocks of an inode, and the blocks that its indirect block names. -/
def directs (n : Nat) : List (Nat × Slot) :=
  (List.finRange NDIRECT).map fun i : Fin NDIRECT => (n, .data i)

def entries (n : Nat) : List (Nat × Slot) :=
  (List.range NINDIRECT).map fun j => (n, .data (NDIRECT + j))

theorem mem_directs {k : Nat × Slot} : k ∈ directs n ↔ ∃ bn < NDIRECT, k = (n, .data bn) := by
  constructor
  · intro hk
    obtain ⟨i, -, rfl⟩ := List.mem_map.mp hk
    exact ⟨i, i.isLt, rfl⟩
  · rintro ⟨bn, hbn, rfl⟩
    exact List.mem_map.mpr ⟨⟨bn, hbn⟩, List.mem_finRange _, rfl⟩

theorem mem_entries {k : Nat × Slot} :
    k ∈ entries n ↔ ∃ bn, NDIRECT ≤ bn ∧ bn < MAXFILE ∧ k = (n, .data bn) := by
  constructor
  · intro hk
    obtain ⟨j, hj, rfl⟩ := List.mem_map.mp hk
    have := List.mem_range.mp hj
    exact ⟨NDIRECT + j, by omega, by unfold MAXFILE; omega, rfl⟩
  · rintro ⟨bn, hlo, hhi, rfl⟩
    unfold MAXFILE at hhi
    refine List.mem_map.mpr ⟨bn - NDIRECT, List.mem_range.mpr (by omega), ?_⟩
    rw [Nat.add_sub_cancel' hlo]

theorem directs_nodup (n : Nat) : (directs n).Nodup :=
  (List.nodup_finRange _).map fun _ _ hij => Fin.ext (Slot.data.inj (Prod.mk.inj hij).2)

theorem entries_nodup (n : Nat) : (entries n).Nodup :=
  List.nodup_range.map fun _ _ hij => Nat.add_left_cancel (Slot.data.inj (Prod.mk.inj hij).2)

/-- All the slots of an inode. -/
def allSlots (n : Nat) : List (Nat × Slot) := directs n ++ (entries n ++ [(n, .table)])

theorem of_mem_allSlots {k : Nat × Slot} (h : k ∈ allSlots n) : k.1 = n := by
  rcases List.mem_append.mp h with h | h
  · obtain ⟨bn, -, rfl⟩ := mem_directs.mp h
    rfl
  · rcases List.mem_append.mp h with h | h
    · obtain ⟨bn, -, -, rfl⟩ := mem_entries.mp h
      rfl
    · rw [List.mem_singleton.mp h]

/-- A slot that is not among them is empty. -/
theorem slots_of_not_mem {k : Nat × Slot} (hk : k.1 = n) (h : k ∉ allSlots n) :
    slots d inode k = 0 := by
  obtain ⟨m, t⟩ := k
  obtain rfl : m = n := hk
  unfold allSlots at h
  rw [List.mem_append, List.mem_append, not_or, not_or] at h
  obtain ⟨hd, he, ht⟩ := h
  cases t with
  | table => exact absurd (List.mem_singleton.mpr rfl) ht
  | data bn =>
    refine Inode.addr_of_max fun hmax => ?_
    by_cases hbn : bn < NDIRECT
    · exact hd (mem_directs.mpr ⟨bn, hbn, rfl⟩)
    · exact he (mem_entries.mpr ⟨bn, Nat.le_of_not_lt hbn, hmax, rfl⟩)

theorem bfreeAll_outcome {E : Fault → Disk → Prop} (h : Consistent sb d inode) (n : Nat) :
    Outcome (bfreeAll (inode n)) (fun _ d' => Freed sb d (slots d inode) (allSlots n) d') E d := by
  have hdirect : ((List.finRange NDIRECT).map fun i => (inode n).addrs i.castSucc) =
      (directs n).map (slots d inode) := by
    rw [directs, List.map_map]
    refine List.map_congr_left fun i _ => ?_
    exact Eq.symm (Inode.addr_direct i.isLt)
  unfold bfreeAll
  rw [hdirect]
  refine (bfreeEach_outcome h.formatted h.owned _ (directs_nodup n)).seq fun _ d1 h1 => ?_
  by_cases ht : (inode n).table = 0
  · rw [if_neg (not_not_intro ht)]
    have hnone (k : Nat × Slot) (hk : k ∈ entries n ++ [(n, .table)]) : slots d inode k = 0 := by
      rcases List.mem_append.mp hk with hk | hk
      · obtain ⟨bn, hlo, -, rfl⟩ := mem_entries.mp hk
        exact Inode.addr_of_table (Nat.not_lt.mpr hlo) ht
      · rw [List.mem_singleton.mp hk]
        exact ht
    refine Outcome.pure.mpr ⟨h1.formatted, ?_, h1.low, fun k hk hmem => ?_⟩
    · have he : without (slots d inode) (allSlots n) = without (slots d inode) (directs n) := by
        rw [allSlots, ← without_append]
        funext k
        unfold without
        by_cases hk : k ∈ entries n ++ [(n, .table)]
        · rw [if_pos hk, hnone k hk]
          exact (ite_self _).symm
        · rw [if_neg hk]
      rw [he]
      exact h1.owned
    · exact h1.kept k hk fun hin => hmem (List.mem_append_left _ hin)
  · rw [if_pos ht]
    have hrange := h.table_range ht
    have hmem : (n, Slot.table) ∉ directs n := fun hin => by
      obtain ⟨bn, -, he⟩ := mem_directs.mp hin
      simp at he
    have hmem2 : (n, Slot.table) ∉ entries n := fun hin => by
      obtain ⟨bn, -, -, he⟩ := mem_entries.mp hin
      simp at he
    have hblock : d1.block (inode n).table.toNat = d.block (inode n).table.toNat :=
      h1.kept (n, .table) ht hmem
    have hentry : (List.range NINDIRECT).map (entry (d1.block (inode n).table.toNat)) =
        (entries n).map (without (slots d inode) (directs n)) := by
      rw [entries, List.map_map, hblock]
      refine List.map_congr_left fun j hj => ?_
      have hj := List.mem_range.mp hj
      have hnot : (n, Slot.data (NDIRECT + j)) ∉ directs n := fun hin => by
        obtain ⟨bn, hbn, he⟩ := mem_directs.mp hin
        have := Slot.data.inj (Prod.mk.inj he).2
        omega
      rw [Function.comp_apply, without, if_neg hnot, slots, Inode.slot, Inode.addr_entry
        (by omega) ht (by unfold MAXFILE; omega), Nat.add_sub_cancel_left]
    rw [Outcome.bind, bread_ok (by rw [h1.formatted.size]; exact hrange.2), hentry]
    refine (bfreeEach_outcome h1.formatted h1.owned _ (entries_nodup n)).seq fun _ d2 h2 => ?_
    have hslot : without (without (slots d inode) (directs n)) (entries n) (n, .table) =
        (inode n).table := by
      rw [without, if_neg hmem2, without, if_neg hmem]
      rfl
    have hne : without (without (slots d inode) (directs n)) (entries n) (n, .table) ≠ 0 := by
      rwa [hslot]
    have hbusy := h2.owned.busy hne
    have hsingle := Freed.single h2.formatted h2.owned hne
    rw [hslot] at hbusy hsingle
    rw [bfree_outcome h2.formatted hrange.1 hrange.2 hbusy]
    exact h1.append (h2.append hsingle)

/-- An inode whose file has been freed. -/
def Inode.cleared (ip : Inode) : Inode := { ip with addrs := fun _ => 0, size := 0 }

theorem Inode.slot_cleared (ip : Inode) (d : Disk) (s : Slot) : ip.cleared.slot d s = 0 := by
  cases s with
  | table => rfl
  | data bn =>
    by_cases hbn : bn < NDIRECT
    · exact Inode.addr_direct hbn
    · exact Inode.addr_of_table hbn rfl

theorem Inode.byte_cleared (ip : Inode) (d : Disk) (pos : Nat) : ip.cleared.byte d pos = 0 :=
  if_pos (ip.slot_cleared d (.data _))

theorem Mapped.cleared (ip : Inode) (d : Disk) : Mapped ip.cleared d 0 where
  addr bn := iff_of_false (not_not_intro (ip.slot_cleared d (.data bn))) (Nat.not_lt_zero bn)
  table := iff_of_false (not_not_intro rfl) (by decide)

theorem itrunc_outcome {E : Fault → Disk → Prop} (h : Consistent sb d inode)
    (hn : n < sb.ninodes.toNat) : Outcome (itrunc n (inode n)) (fun ip' d' =>
      ip' = (inode n).cleared ∧ Consistent sb d' (update inode n ip') ∧
        Frame n d inode d' (update inode n ip') ∧ d'.inode sb = update (d.inode sb) n ip') E d := by
  unfold itrunc
  refine (bfreeAll_outcome h n).seq fun _ d1 hfreed => ?_
  dsimp only
  have hother (m : Nat) (hm : m ≠ n) : Untouched d d1 (inode m) := fun t ht =>
    hfreed.kept (m, t) ht fun hin => hm (of_mem_allSlots hin)
  have hslots : slots d1 (update inode n (inode n).cleared) =
      without (slots d inode) (allSlots n) := by
    funext ⟨m, t⟩
    unfold without
    by_cases hm : m = n
    · subst hm
      rw [slots, Function.update_self]
      refine (Inode.slot_cleared ..).trans ?_
      split
      · rfl
      · rename_i hnot
        exact (slots_of_not_mem rfl hnot).symm
    · rw [if_neg (fun hin => hm (of_mem_allSlots hin)), slots, Function.update_of_ne hm,
        (hother m hm).slot]
      rfl
  have hcons : Consistent sb d1 (update inode n (inode n).cleared) :=
    ⟨hfreed.formatted, by rw [hslots]; exact hfreed.owned⟩
  obtain ⟨hcons', hu⟩ := hcons.iupdate hn
    ((inode n).cleared.store (d1.block (IBLOCK n)) (n % IPB))
  rw [Outcome.bind, iupdate_outcome hfreed.formatted hn, Outcome.pure]
  refine ⟨rfl, hcons', fun m hm => ⟨Function.update_of_ne hm .., ?_⟩, ?_⟩
  · have := hu m
    rw [Function.update_of_ne hm] at this
    exact (hother m hm).trans this
  · rw [← Disk.inode_congr hfreed.low]
    exact Disk.inode_store hn _

end PerrOS.Fs
