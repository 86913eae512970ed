import PerrOS.Fsck.Metadata

/-!
# Array bounds

The first loop of `checkFreeMap` runs up to and including slot `ninodes` of a
table of `ninodes` inodes, so that fsck reads past the end of its inode table
on every image it accepts.
-/

namespace PerrOS.Fsck

open Lib Function

/-- The access stays inside the array. -/
def Access.Within (s : Globals) : Access → Prop
  | .inode i => i < s.ninodes
  | .map i => 0 ≤ i ∧ i < s.numBlockChars
  | .block k bytes => BSIZE * (k + 1) ≤ bytes

/-- Checking the free map and walking the directories stay inside the inode
table, the maps and the directory buffers. -/
def StaysInBounds (s : Globals) : Prop :=
  (∀ a ∈ (checkFreeMap s).touched, a.Within s) ∧
    ∀ ls w, (walk (checkFreeMap s)).Run ls w → ∀ a ∈ w.globals.touched, a.Within s

-- ---------------------------------------------------------------------------
-- The log only grows
-- ---------------------------------------------------------------------------

/-- The log of `s` is kept in that of `t`. -/
def Logs (s t : Globals) : Prop := s.touched ⊆ t.touched

theorem Logs.refl (s : Globals) : Logs s s := List.Subset.refl _

theorem Logs.trans {s t u : Globals} (h : Logs s t) (h' : Logs t u) : Logs s u :=
  List.Subset.trans h h'

theorem logs_touch (a : Access) (s : Globals) : Logs s (s.touch a) := List.subset_cons_self ..

theorem logs_loop {f : Nat → Globals → Globals} (h : ∀ i t, Logs t (f i t)) (n : Nat)
    (s : Globals) : Logs s (loop n f s) :=
  loop_invariant (P := fun _ t => Logs s t) (Logs.refl s) fun i t _ ht => ht.trans (h i t)

theorem logs_destroyFrom (addr : BitVec 32) (n i : Nat) (s : Globals) :
    Logs s (destroyFrom addr n i s) := by
  induction n generalizing i s with
  | zero => exact Logs.refl s
  | succ n ih =>
    have h := logs_touch (.inode i) s
    unfold destroyFrom
    dsimp only
    split
    · exact h
    · split
      · exact h
      · split
        · split
          · exact h
          · refine Logs.trans ?_ (ih ..)
            exact h
        · exact h.trans (ih ..)

theorem logs_compareByte (i : Nat) (s : Globals) : Logs s (compareByte i s) := by
  have h := logs_touch (.map i) s
  unfold compareByte
  dsimp only
  split
  · refine Logs.trans ?_ (logs_loop (fun n t => ?_) 8 _)
    · exact h
    · split
      · exact logs_destroyFrom ..
      · exact Logs.refl t
  · exact h

theorem logs_markAsBusy (addr : BitVec 32) (s : Globals) :
    Logs s (markAsBusyInMyFreeMap addr s) := List.subset_cons_self ..

theorem logs_markInode (i : Nat) (s : Globals) : Logs (s.touch (.inode i)) (markInode i s) := by
  have hd (addr : Nat → BitVec 32) (t : Globals) :
      Logs t (loop NDIRECT (fun j => markAsBusyInMyFreeMap (addr j)) t) :=
    logs_loop (fun j t => logs_markAsBusy (addr j) t) NDIRECT t
  unfold markInode
  dsimp only
  split
  · split
    · refine Logs.trans ?_ (logs_loop (fun j t => ?_) ..)
      · exact (hd ..).trans (logs_markAsBusy ..)
      · split
        · exact logs_markAsBusy ..
        · exact Logs.refl t
    · exact hd ..
  · exact Logs.refl _

/-- The slot past the end of the inode table is read. -/
theorem inode_mem_touched (h : s.ninodes ≠ 0) : .inode s.ninodes ∈ (checkFreeMap s).touched := by
  obtain ⟨n, hn⟩ := Nat.exists_eq_succ_of_ne_zero h
  have h0 : (seedMap s).ninodes = s.ninodes := rfl
  unfold checkFreeMap
  dsimp only
  rw [h0]
  apply logs_loop logs_compareByte
  rw [hn, markInodes_succ]
  exact logs_markInode _ _ List.mem_cons_self

/-- No image that `checkSuperblock` accepts keeps fsck inside its arrays. -/
theorem never_in_bounds (hl : load heap garbage img = some s) : ¬ StaysInBounds s := by
  intro h
  have hne : s.ninodes ≠ 0 := by
    intro hz
    refine (load_spec hl).1.ninodes (BitVec.eq_of_toNat_eq ?_)
    exact hz
  exact Nat.lt_irrefl _ (h.1 _ (inode_mem_touched hne))

/-- The image with 400 inodes has slot 400 read. -/
theorem slot_400_read : load (fun _ => 0) (fun _ => 0) manyInodes = some manyInodesLoaded ∧
    ¬ StaysInBounds manyInodesLoaded := by
  refine ⟨load_manyInodes, fun h => ?_⟩
  exact absurd (h.1 _ (inode_mem_touched (by decide))) (Nat.lt_irrefl _)

theorem never_in_bounds_many : ¬ StaysInBounds manyInodesLoaded := never_in_bounds load_manyInodes

end PerrOS.Fsck
