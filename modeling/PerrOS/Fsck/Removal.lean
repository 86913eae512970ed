import PerrOS.Fsck.Metadata

/-!
# Freeing one block

`markAsFreeInBitMap` takes the byte of a block from `myFreeMap`, clears the
block's bit in it and stores it in `theirFreeMap`. What else the byte counts
comes out as it is in the other map.
-/

namespace PerrOS.Fsck

open Lib Function

variable {s t : Globals} {addr : BitVec 32} {inode : Dinode} {a b inum : Nat}

-- ---------------------------------------------------------------------------
-- One call
-- ---------------------------------------------------------------------------

theorem charIndex_of_nat (h : addr.toInt = a) :
    getCharIndexFromAddr addr = ((a / 8 : Nat) : Int) := by
  unfold getCharIndexFromAddr
  rw [h]
  exact Int.ofNat_tdiv a 8

theorem bitAt_of_nat (h : addr.toInt = a) : bitAt (getBitIndexFromAddr addr) = (1#8) <<< (a % 8) := by
  have hbit : getBitIndexFromAddr addr = ((a % 8 : Nat) : Int) := by
    unfold getBitIndexFromAddr
    rw [h]
    exact Int.ofNat_tmod a 8
  unfold bitAt
  rw [hbit, if_neg (by omega)]
  rfl

/-- The map on disk after one call. -/
theorem markAsFree_busy (h : addr.toInt = a) (b : Nat) :
    (markAsFreeInBitMap addr s).theirFreeMap.busy b =
      if b / 8 = a / 8 then s.myFreeMap.busy b && decide (b ≠ a) else s.theirFreeMap.busy b := by
  unfold markAsFreeInBitMap Bitmap.busy
  dsimp only
  rw [charIndex_of_nat h, bitAt_of_nat h]
  split
  · next hb =>
    have hk : b % 8 < 8 := Nat.mod_lt b (by decide)
    have hba : b % 8 = a % 8 ↔ b = a := by omega
    rw [hb, update_self, BitVec.getLsbD_and, BitVec.getLsbD_not,
      Bitmap.getLsbD_bit (Nat.mod_lt a (by decide)), Bool.and_comm]
    simp [hk, hba]
  · next hb =>
    rw [update_of_ne (by omega)]

/-- A call clears the bit of its block and no other. -/
def ClearsBit (addr : BitVec 32) (s : Globals) : Prop :=
  (markAsFreeInBitMap addr s).theirFreeMap.busy addr.toNat = false ∧
    ∀ b, b ≠ addr.toNat →
      (markAsFreeInBitMap addr s).theirFreeMap.busy b = s.theirFreeMap.busy b

/-- The maps agree on the other blocks that the byte of a block counts. -/
def MapsAgree (addr : BitVec 32) (s : Globals) : Prop :=
  ∀ b, b / 8 = addr.toNat / 8 → b ≠ addr.toNat → s.myFreeMap.busy b = s.theirFreeMap.busy b

theorem clearsBit_iff (h : 0 ≤ addr.toInt) : ClearsBit addr s ↔ MapsAgree addr s := by
  have haddr : addr.toInt = addr.toNat := by
    rw [BitVec.toInt_eq_toNat_cond] at h ⊢
    split at h <;> omega
  have hbusy := markAsFree_busy (s := s) haddr
  constructor
  · rintro ⟨-, hkeep⟩ b hb hne
    rw [← hkeep b hne, hbusy, if_pos hb, decide_eq_true hne, Bool.and_true]
  · intro hagree
    refine ⟨by simp [hbusy], fun b hne => ?_⟩
    rw [hbusy]
    split
    · next hb => rw [decide_eq_true hne, Bool.and_true, hagree b hb hne]
    · rfl

-- ---------------------------------------------------------------------------
-- One inode
-- ---------------------------------------------------------------------------

/-- Freeing `addr` does not make block `b` free. -/
def Spares (s : Globals) (b : Nat) (addr : BitVec 32) : Prop :=
  getCharIndexFromAddr addr = ((b / 8 : Nat) : Int) →
    s.myFreeMap.busy b = true ∧ addr.toInt ≠ b

theorem markAsFree_keeps (hb : s.theirFreeMap.busy b = true) (h : Spares s b addr) :
    (markAsFreeInBitMap addr s).theirFreeMap.busy b = true := by
  by_cases hc : getCharIndexFromAddr addr = ((b / 8 : Nat) : Int)
  · obtain ⟨hmy, hne⟩ := h hc
    by_cases hpos : 0 ≤ addr.toInt
    · obtain ⟨a, ha⟩ := Int.eq_ofNat_of_zero_le hpos
      have hdiv : b / 8 = a / 8 := by
        have := charIndex_of_nat ha
        omega
      have hba : b ≠ a := fun he => hne (he ▸ ha)
      rw [markAsFree_busy ha, if_pos hdiv, hmy, decide_eq_true hba]
      rfl
    · -- the bit of a negative address is shifted out
      have hneg : getBitIndexFromAddr addr < 0 := by
        unfold getCharIndexFromAddr at hc
        unfold getBitIndexFromAddr
        rw [Int.tmod_def, hc]
        omega
      have hbyte : (markAsFreeInBitMap addr s).theirFreeMap ((b / 8 : Nat) : Int) =
          s.myFreeMap ((b / 8 : Nat) : Int) := by
        unfold markAsFreeInBitMap bitAt
        dsimp only
        rw [hc, update_self, if_pos hneg]
        exact BitVec.allOnes_and
      unfold Bitmap.busy at hmy ⊢
      rw [hbyte, hmy]
  · have hkept := (freed_markAsFree addr s).kept _ (fun he => hc he)
    rw [Bitmap.busy_congr hkept, hb]

theorem Spares.of_my (h : Spares s b addr) (hmy : t.myFreeMap = s.myFreeMap) : Spares t b addr :=
  fun hc => by
    rw [hmy]
    exact h hc

theorem markAsFree_keeps_loop (addrs : Nat → BitVec 32) (p : Nat → Prop) [DecidablePred p] (n : Nat)
    (hb : s.theirFreeMap.busy b = true) (h : ∀ j < n, p j → Spares s b (addrs j)) :
    (loop n (fun j s => if p j then markAsFreeInBitMap (addrs j) s else s) s).theirFreeMap.busy b =
      true := by
  have hall := loop_invariant (P := fun _ t => t.myFreeMap = s.myFreeMap ∧
      t.theirFreeMap.busy b = true) (n := n) (s := s)
    (f := fun j s => if p j then markAsFreeInBitMap (addrs j) s else s) ⟨rfl, hb⟩ ?_
  · exact hall.2
  · rintro j t hj ⟨hmy, ht⟩
    by_cases hp : p j
    · rw [if_pos hp]
      exact ⟨hmy, markAsFree_keeps ht ((h j hj hp).of_my hmy)⟩
    · rw [if_neg hp]
      exact ⟨hmy, ht⟩

/-- What every address that is freed with an inode spares stays busy. -/
theorem freeBlocks_keeps (hb : s.theirFreeMap.busy b = true)
    (h : ∀ addr, Frees s inode addr → Spares s b addr) :
    (freeBlocks inode s).theirFreeMap.busy b = true := by
  let d := loop NDIRECT (fun j => markAsFreeInBitMap (inode.addrs j)) s
  have hdirect : d.theirFreeMap.busy b = true := by
    have hloop := markAsFree_keeps_loop inode.addrs (fun _ => True) NDIRECT hb
      fun j hj _ => h _ (.inl ⟨j, hj, rfl⟩)
    simpa only [if_true] using hloop
  have hmy : d.myFreeMap = s.myFreeMap := loop_frame Globals.myFreeMap fun _ _ => rfl
  unfold freeBlocks
  dsimp only
  split
  · next hind =>
    have hread : (readEntries (inode.addrs NDIRECT)
        (markAsFreeInBitMap (inode.addrs NDIRECT) d)).1 =
        (readEntries (inode.addrs NDIRECT) s).1 := by
      apply readEntries_congr
      · rw [markAsFree_image, loop_frame Globals.image fun _ _ => markAsFree_image ..]
      · rw [markAsFree_garbage, loop_frame Globals.garbage fun _ _ => markAsFree_garbage ..]
    have hown := h _ (.inr ⟨hind, .inl rfl⟩)
    rw [hread]
    refine markAsFree_keeps_loop _ _ _ (markAsFree_keeps hdirect (hown.of_my hmy)) fun j hj hp => ?_
    exact (h _ (.inr ⟨hind, .inr ⟨j, hj, hp, rfl⟩⟩)).of_my hmy
  · exact hdirect

-- ---------------------------------------------------------------------------
-- The walk
-- ---------------------------------------------------------------------------

/-- Block `b` is one of an inode's: a block that it names, or one that its
indirect block names. -/
def Owns (s : Globals) (inode : Dinode) (b : Nat) : Prop :=
  ∃ addr, Frees s inode addr ∧ addr ≠ 0 ∧ addr.toInt = b

/-- The next step removes an inode that owns `b`. -/
def Walk.Removes (w : Walk) (b : Nat) : Prop :=
  ∃ f rest inum, w.frames = f :: rest ∧ f.called = false ∧ f.action w.globals = .clear inum ∧
    Owns w.globals (w.globals.myInodes inum) b

/-- The walk, and the blocks of the inodes that it has removed so far. -/
structure Removal where
  walk : Walk
  removed : Nat → Prop

def removal (s : Globals) : System Removal Unit where
  init r := r.walk = start s ∧ ∀ b, ¬ r.removed b
  step r _ r' := r.walk.next = some r'.walk ∧
    ∀ b, r'.removed b ↔ r.removed b ∨ r.walk.Removes b

/-- The blocks that a walk has removed are determined by its run. -/
theorem exists_removal {w : Walk} (h : (walk s).Run ls w) :
    ∃ removed, (removal s).Run ls ⟨w, removed⟩ := by
  induction h with
  | init h => exact ⟨fun _ => False, .init ⟨h, fun _ => id⟩⟩
  | @step ls w l w' _ hs ih =>
    obtain ⟨removed, hr⟩ := ih
    exact ⟨fun b => removed b ∨ w.Removes b, hr.step ⟨hs, fun b => Iff.rfl⟩⟩

/-- If the next step removes an inode, then every busy block of a byte in which
it frees an address is the inode's own, or is busy in `myFreeMap` and not freed
itself, as block 0 is for an unused direct number. -/
def SparesOthers (r : Removal) (_ : Unit) : Prop :=
  ∀ f rest inum, r.walk.frames = f :: rest → f.called = false →
    f.action r.walk.globals = .clear inum → ∀ b, r.walk.globals.theirFreeMap.busy b = true →
      Owns r.walk.globals (r.walk.globals.myInodes inum) b ∨
        ∀ addr, Frees r.walk.globals (r.walk.globals.myInodes inum) addr →
          Spares r.walk.globals b addr

theorem Step.keeps {w w' : Walk} (h : Step w w') (hb : w.globals.theirFreeMap.busy b = true)
    (hs : ∀ f rest inum, w.frames = f :: rest → f.called = false →
      f.action w.globals = .clear inum →
      ∀ addr, Frees w.globals (w.globals.myInodes inum) addr → Spares w.globals b addr) :
    w'.globals.theirFreeMap.busy b = true := by
  have hmaps {s t : Globals} (ht : t.maps = s.maps) (hb : s.theirFreeMap.busy b = true) :
      t.theirFreeMap.busy b = true := by
    simp only [Globals.maps, Prod.mk.injEq] at ht
    rw [ht.1, hb]
  cases h with
  | returned s f rest hc => exact hmaps (writeDirectory_maps ..) hb
  | leave s f rest hc ha => exact hb
  | skip s f rest hc ha => exact hmaps (writeDirectory_maps f (s.touch _)) hb
  | keep s f rest inum hc ha => exact hmaps (writeDirectory_maps f ((s.touch _).touch _)) hb
  | descend s f rest inum r hc ha hr =>
    rw [hr]
    exact hmaps (enter_maps inum f.parentInum _) hb
  | clear s f rest inum hc ha =>
    refine hmaps (writeDirectory_maps ..) ?_
    exact freeBlocks_keeps (s := (s.touch (.inode f.parentInum)).touch (.inode inum)) hb
      (hs f rest inum rfl hc ha)

/-- As long as the inodes removed spare what is not theirs, a busy block stays
busy unless it was a removed inode's. -/
theorem keeps_busy {r : Removal} (h : ((removal s).restrict SparesOthers).Run ls r)
    (hb : s.theirFreeMap.busy b = true) :
    r.removed b ∨ r.walk.globals.theirFreeMap.busy b = true := by
  refine h.invariant (P := fun _ r => r.removed b ∨ r.walk.globals.theirFreeMap.busy b = true) ?_ ?_
  · rintro r ⟨hr, -⟩
    have hmaps := enter_maps ROOTINO ROOTINO s
    simp only [Globals.maps, Prod.mk.injEq] at hmaps
    rw [hr, start, hmaps.1, hb]
    exact .inr rfl
  · rintro _ r _ r' (hrem | hbusy) ⟨⟨hs, hnew⟩, hok⟩
    · exact .inl ((hnew b).mpr (.inl hrem))
    by_cases hown : r.walk.Removes b
    · exact .inl ((hnew b).mpr (.inr hown))
    · refine .inr ((Step.of_next hs).keeps hbusy fun f rest inum hf hc ha => ?_)
      exact (hok f rest inum hf hc ha b hbusy).resolve_left fun ho => hown ⟨f, rest, inum, hf, hc, ha, ho⟩

/-- A call frees one block exactly where the maps agree on the others of its
byte, and a walk that removes inodes only where this does no harm frees their
blocks only. -/
theorem frees_one_block (s : Globals) :
    (∀ addr, 0 ≤ addr.toInt → (ClearsBit addr s ↔ MapsAgree addr s)) ∧
    ∀ ls r, ((removal s).restrict SparesOthers).Run ls r → ∀ b, s.theirFreeMap.busy b = true →
      r.removed b ∨ r.walk.globals.theirFreeMap.busy b = true :=
  ⟨fun _ h => clearsBit_iff h, fun _ _ h _ hb => keeps_busy h hb⟩

/-- On an image that has all its metadata blocks busy, freeing block 5 frees
block 4 as well. -/
theorem frees_neighbour : load (fun _ => 0) (fun _ => 0) manyInodes = some manyInodesLoaded ∧
    ¬ ClearsBit 5 (checkFreeMap manyInodesLoaded) := by
  refine ⟨load_manyInodes, fun hclears => ?_⟩
  obtain ⟨ha, hf⟩ := load_spec load_manyInodes
  have hend : 4 ≤ metadataEnd manyInodesLoaded := (by decide : 4 ≤ 53)
  obtain ⟨htheirs, hmine⟩ := checkFreeMap_busy hf (covers_metadata ha hend)
  have hdisk := busy_manyInodes 4 hend
  have hagree := (clearsBit_iff (by decide)).mp hclears 4 (by decide) (by decide)
  rw [htheirs.mpr ⟨hdisk, .inl (by decide)⟩] at hagree
  exact (hmine.mp hagree).1 hdisk

end PerrOS.Fsck
