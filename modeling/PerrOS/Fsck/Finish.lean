import PerrOS.Fsck.Metadata
import PerrOS.Fsck.Volume

/-!
# Writing back

`main` after the walk, and what an image shows of the inode table and the
directories that were written to it.
-/

namespace PerrOS.Fsck

open Lib Function

def INODES_BLOCK_NUMBER : BitVec 32 := 2

/-- The bytes of `myInodes`. -/
def inodeTable (inodes : Nat → Dinode) : Memory :=
  fun o => (inodes (o / dinodeSize)).toBytes (o % dinodeSize)

/-- `main` from the end of the walk on. -/
def writeBack (s : Globals) : Image :=
  let myInodes := update s.myInodes (1 + 0x0e) { s.myInodes (1 + 0x0e) with nlink := 1 }
  let image := (s.image.seekToBlock INODES_BLOCK_NUMBER).write (s.ninodes * dinodeSize)
    (inodeTable myInodes)
  (image.seekToBlock (bitMapRegionStart s.mySuperblock)).write s.numBlockChars
    fun c => s.theirFreeMap c

/-- The volume that an image holds. -/
def Image.volume (img : Image) : Volume where
  data := img.data
  inode i := .ofBytes img.data (1024 + dinodeSize * i)

-- ---------------------------------------------------------------------------
-- The written image
-- ---------------------------------------------------------------------------

/-- All offsets on the image fit an `int`. -/
def Small (s : Globals) : Prop := BSIZE * s.mySuperblock.size.toNat < 2 ^ 31

section WriteBack

variable {s : Globals}

theorem bitMapRegionStart_toNat (super : Superblock) :
    (bitMapRegionStart super).toNat = super.ninodes.toNat / IPB + 3 := by
  have h3 : (3 : BitVec 32).toNat = 3 := rfl
  have hlt := super.ninodes.isLt
  simp only [bitMapRegionStart, BitVec.toNat_add, BitVec.toNat_udiv, BitVec.toNat_ofNat, h3, IPB,
    BSIZE, dinodeSize, Nat.reducePow, Nat.reduceMod, Nat.reduceDiv]
  omega

variable (ha : s.mySuperblock.Accepted)
include ha

/-- The inode table comes before the map, and the map does not reach the data
blocks. -/
theorem table_layout : 1024 + s.ninodes * dinodeSize ≤ 512 * (s.ninodes / IPB + 3) ∧
    512 * (s.ninodes / IPB + 3) + s.numBlockChars ≤ BSIZE * (metadataEnd s + 1) := by
  obtain ⟨hsum, hmod, -⟩ := ha.size_eq
  have hmap := (numBlockChars_bounds ha).2
  unfold metadataEnd
  simp only [IPB, BSIZE, dinodeSize] at hsum hmod ⊢
  omega

variable (hs : Small s)
include hs

theorem writeBack_data (o : Nat) : (writeBack s).data o =
    if 512 * (s.ninodes / IPB + 3) ≤ o ∧ o < 512 * (s.ninodes / IPB + 3) + s.numBlockChars then
      s.theirFreeMap ((o - 512 * (s.ninodes / IPB + 3) : Nat) : Int)
    else if 1024 ≤ o ∧ o < 1024 + s.ninodes * dinodeSize then
      inodeTable (update s.myInodes 15 { s.myInodes 15 with nlink := 1 }) (o - 1024)
    else if o < s.image.length then s.image.data o else 0 := by
  obtain ⟨hsum, -, -⟩ := ha.size_eq
  have hstart := bitMapRegionStart_toNat s.mySuperblock
  have hn : s.mySuperblock.ninodes.toNat = s.ninodes := rfl
  have h8 : IPB = 8 := rfl
  unfold Small BSIZE at hs
  rw [h8] at hsum hstart ⊢
  have hpos2 (img : Image) : (img.seekToBlock INODES_BLOCK_NUMBER).pos = 1024 :=
    img.seekToBlock_pos (by decide)
  have hposm (img : Image) : (img.seekToBlock (bitMapRegionStart s.mySuperblock)).pos =
      512 * (s.ninodes / 8 + 3) := by
    rw [img.seekToBlock_pos (by omega), hstart, hn]
  simp only [writeBack, Image.write, hpos2, hposm, Image.seekToBlock_data,
    Image.seekToBlock_length]
  congr 1
  -- a byte of the table is in the file once the table is written
  by_cases ht : 1024 ≤ o ∧ o < 1024 + s.ninodes * dinodeSize
  · rw [if_pos ht, if_pos (by omega)]
  · rw [if_neg ht]
    by_cases hl : o < s.image.length
    · rw [if_pos hl, if_pos (by omega)]
    · rw [if_neg hl, ite_self]

theorem writeBack_data_of_lt (hm : metadataEnd s < o / BSIZE) (ho : o < s.image.length) :
    (writeBack s).data o = s.image.data o := by
  obtain ⟨h1, h2⟩ := table_layout ha
  have hle : BSIZE * (metadataEnd s + 1) ≤ o := by
    unfold BSIZE at *
    omega
  rw [writeBack_data ha hs, if_neg (by omega), if_neg (by omega), if_pos ho]

theorem writeBack_inode (hi : i < s.ninodes) :
    ((writeBack s).volume.inode i).type = (s.myInodes i).type ∧
      ((writeBack s).volume.inode i).size = (s.myInodes i).size ∧
      ∀ j ≤ NDIRECT, ((writeBack s).volume.inode i).addrs j = (s.myInodes i).addrs j := by
  obtain ⟨h1, -⟩ := table_layout ha
  have hbytes (k : Nat) (hk : k < dinodeSize) : (writeBack s).data (1024 + dinodeSize * i + k) =
      (update s.myInodes 15 { s.myInodes 15 with nlink := 1 } i).toBytes (0 + k) := by
    have hmul : dinodeSize * i + dinodeSize ≤ s.ninodes * dinodeSize := by
      rw [← Nat.mul_succ, Nat.mul_comm]
      exact Nat.mul_le_mul_right _ hi
    have hdiv : (1024 + dinodeSize * i + k - 1024) / dinodeSize = i := by
      unfold dinodeSize at *
      omega
    have hmod : (1024 + dinodeSize * i + k - 1024) % dinodeSize = k := by
      unfold dinodeSize at *
      omega
    rw [writeBack_data ha hs, if_neg (by omega), if_pos (by omega), inodeTable, hdiv, hmod,
      Nat.zero_add]
  obtain ⟨ht, hsz, had⟩ := Dinode.ofBytes_congr hbytes
  obtain ⟨ht', hsz', had'⟩ :=
    Dinode.ofBytes_toBytes (update s.myInodes 15 { s.myInodes 15 with nlink := 1 } i)
  have hsame : (update s.myInodes 15 { s.myInodes 15 with nlink := 1 } i).type =
        (s.myInodes i).type ∧
      (update s.myInodes 15 { s.myInodes 15 with nlink := 1 } i).size = (s.myInodes i).size ∧
      (update s.myInodes 15 { s.myInodes 15 with nlink := 1 } i).addrs = (s.myInodes i).addrs := by
    by_cases h : i = 15
    · subst h
      rw [update_self]
      exact ⟨rfl, rfl, rfl⟩
    · rw [update_of_ne h]
      exact ⟨rfl, rfl, rfl⟩
  refine ⟨(ht.trans ht').trans hsame.1, (hsz.trans hsz').trans hsame.2.1, fun j hj => ?_⟩
  rw [← hsame.2.2]
  exact (had j hj).trans (had' j hj)

/-- A directory in the table whose blocks are data blocks of the image is read
back as it is. -/
theorem writeBack_sameDir (hd : d < s.ninodes)
    (hb : ∀ b, s.volume.Holds d b → metadataEnd s < b.toNat ∧ OnDisk s.image.length b) :
    s.volume.SameDir (writeBack s).volume d := by
  obtain ⟨-, hsize, haddrs⟩ := writeBack_inode ha hs hd
  have hdata (b : BitVec 32) (h : s.volume.Holds d b) (o : Nat) (ho : InBlock b o) :
      (writeBack s).data o = s.image.data o := by
    obtain ⟨hm, hon⟩ := hb b h
    refine writeBack_data_of_lt ha hs ?_ (hon.lt_length ho)
    rwa [show o / BSIZE = b.toNat from ho]
  exact ⟨⟨hsize, haddrs, fun h => hdata _ (.of_indirect h)⟩, fun k hk => hdata _ (.of_block hk)⟩

end WriteBack

-- ---------------------------------------------------------------------------
-- What the walk leaves of the superblock
-- ---------------------------------------------------------------------------

theorem Step.mySuperblock {w w' : Walk} (h : Step w w') :
    w'.globals.mySuperblock = w.globals.mySuperblock := by
  have hwrite (f : Frame) (s : Globals) : (writeDirectory f s).mySuperblock = s.mySuperblock :=
    (congrArg Globals.mySuperblock (writeDirectory_memory f s) :)
  cases h with
  | returned s f rest => exact hwrite f s
  | leave s f rest => rfl
  | skip s f rest => exact hwrite f _
  | keep s f rest inum => exact hwrite f _
  | clear s f rest inum =>
    refine (hwrite _ _).trans ?_
    exact freeBlocks_frame Globals.mySuperblock (fun _ _ => rfl) (fun _ _ => rfl) ..
  | descend s f rest inum r _ _ hr =>
    have hread (parent : Dinode) (bytes : Nat) (t : Globals) :
        (readDirectory parent bytes t).2.mySuperblock = t.mySuperblock :=
      (congrArg Globals.mySuperblock (readDirectory_memory parent bytes t) :)
    rw [hr]
    unfold enter patch
    dsimp only
    split <;> exact hread ..

end PerrOS.Fsck
