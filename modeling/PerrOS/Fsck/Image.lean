import PerrOS.Lib.Bytes
import PerrOS.Lib.Loop

/-!
# File system images

The on-disk structures of the file system and the image file as the tools
see it: bytes, a length and the offset of the open descriptor. Descriptors
are left out: the image is open for reading and writing throughout.
-/

namespace PerrOS.Fsck

open Lib

abbrev Byte := BitVec 8

/-- The file system's root is inode 1. -/
def ROOTINO : Nat := 1

def BSIZE : Nat := 512

def NDIRECT : Nat := 12

/-- `sizeof(struct dinode)`. -/
def dinodeSize : Nat := 64

/-- `sizeof(struct dirent)`. -/
def direntSize : Nat := 16

/-- Inodes per block. -/
def IPB : Nat := BSIZE / dinodeSize

/-- `BSIZE / sizeof(int)`, the entries of an indirect block. -/
def NINDIRECT : Nat := BSIZE / 4

structure Superblock where
  size : BitVec 32
  nblocks : BitVec 32
  ninodes : BitVec 32
  deriving DecidableEq

/-- `sizeof(struct superblock)`. -/
def superblockSize : Nat := 12

def Superblock.ofBytes (b : Memory) : Superblock where
  size := .ofNat 32 (b.read 0 4)
  nblocks := .ofNat 32 (b.read 4 4)
  ninodes := .ofNat 32 (b.read 8 4)

def Superblock.toBytes (super : Superblock) : Memory :=
  let b : Memory := fun _ => 0
  ((b.write 0 4 super.size.toNat).write 4 4 super.nblocks.toNat).write 8 4 super.ninodes.toNat

/-- An on-disk inode: `addrs` holds the direct block numbers and, at
`NDIRECT`, the number of the indirect block. -/
structure Dinode where
  type : BitVec 16
  major : BitVec 16
  minor : BitVec 16
  nlink : BitVec 16
  size : BitVec 32
  addrs : Nat → BitVec 32

/-- What `memset` to zero makes of an inode. -/
def Dinode.zero : Dinode := ⟨0, 0, 0, 0, 0, fun _ => 0⟩

/-- The inode whose bytes start at `a`. -/
def Dinode.ofBytes (b : Memory) (a : Nat) : Dinode where
  type := .ofNat 16 (b.read a 2)
  major := .ofNat 16 (b.read (a + 2) 2)
  minor := .ofNat 16 (b.read (a + 4) 2)
  nlink := .ofNat 16 (b.read (a + 6) 2)
  size := .ofNat 32 (b.read (a + 8) 4)
  addrs j := .ofNat 32 (b.read (a + 12 + 4 * j) 4)

/-- The bytes of an inode. -/
def Dinode.toBytes (inode : Dinode) : Memory :=
  let b : Memory := fun _ => 0
  let b := ((((b.write 0 2 inode.type.toNat).write 2 2 inode.major.toNat).write 4 2
    inode.minor.toNat).write 6 2 inode.nlink.toNat).write 8 4 inode.size.toNat
  loop (NDIRECT + 1) (fun j b => b.write (12 + 4 * j) 4 (inode.addrs j).toNat) b

theorem Dinode.ofBytes_congr (h : ∀ k < dinodeSize, b (a + k) = b' (a' + k)) :
    (ofBytes b a).type = (ofBytes b' a').type ∧ (ofBytes b a).size = (ofBytes b' a').size ∧
      ∀ j ≤ NDIRECT, (ofBytes b a).addrs j = (ofBytes b' a').addrs j := by
  have hr (k n : Nat) (hk : k + n ≤ dinodeSize) : b.read (a + k) n = b'.read (a' + k) n := by
    induction n generalizing k with
    | zero => rfl
    | succ n ih => rw [Memory.read, Memory.read, h k (by omega), Nat.add_assoc, Nat.add_assoc,
        ih (k + 1) (by omega)]
  have hd (j : Nat) (hj : j ≤ NDIRECT) : 12 + 4 * j + 4 ≤ dinodeSize := by
    unfold NDIRECT dinodeSize at *
    omega
  simp only [ofBytes]
  refine ⟨by rw [← Nat.add_zero a, ← Nat.add_zero a', hr 0 2 (by decide)],
    by rw [hr 8 4 (by decide)], fun j hj => ?_⟩
  rw [Nat.add_assoc, Nat.add_assoc, hr _ 4 (hd j hj)]

/-- The type, the size and the block numbers of an inode are read back. -/
theorem Dinode.ofBytes_toBytes (inode : Dinode) : (ofBytes inode.toBytes 0).type = inode.type ∧
    (ofBytes inode.toBytes 0).size = inode.size ∧
      ∀ j ≤ NDIRECT, (ofBytes inode.toBytes 0).addrs j = inode.addrs j := by
  have lt2 (x : BitVec 16) : x.toNat < 256 ^ 2 := x.isLt
  have lt4 (x : BitVec 32) : x.toNat < 256 ^ 4 := x.isLt
  -- the numbers written so far are there, and so is what lies before them
  have hinv : inode.toBytes.read 0 2 = inode.type.toNat ∧ inode.toBytes.read 8 4 = inode.size.toNat ∧
      ∀ j < NDIRECT + 1, inode.toBytes.read (12 + 4 * j) 4 = (inode.addrs j).toNat := by
    unfold toBytes
    refine loop_invariant (P := fun n (b : Memory) => b.read 0 2 = inode.type.toNat ∧
      b.read 8 4 = inode.size.toNat ∧ ∀ j < n, b.read (12 + 4 * j) 4 = (inode.addrs j).toNat) ?_ ?_
    · refine ⟨?_, Memory.read_write_of_lt (lt4 _), fun j hj => absurd hj (Nat.not_lt_zero j)⟩
      rw [Memory.read_write_disjoint (by omega), Memory.read_write_disjoint (by omega),
        Memory.read_write_disjoint (by omega), Memory.read_write_disjoint (by omega),
        Memory.read_write_of_lt (lt2 _)]
    · rintro n b - ⟨ht, hs, ha⟩
      refine ⟨?_, ?_, fun j hj => ?_⟩
      · rw [Memory.read_write_disjoint (by omega), ht]
      · rw [Memory.read_write_disjoint (by omega), hs]
      · obtain hlt | rfl := Nat.lt_succ_iff_lt_or_eq.mp hj
        · rw [Memory.read_write_disjoint (by omega), ha j hlt]
        · exact Memory.read_write_of_lt (lt4 _)
  obtain ⟨ht, hs, ha⟩ := hinv
  simp only [ofBytes, Nat.zero_add]
  refine ⟨by rw [ht, BitVec.ofNat_toNat, BitVec.setWidth_eq],
    by rw [hs, BitVec.ofNat_toNat, BitVec.setWidth_eq], fun j hj => ?_⟩
  rw [ha j (by omega), BitVec.ofNat_toNat, BitVec.setWidth_eq]

-- ---------------------------------------------------------------------------
-- The image file
-- ---------------------------------------------------------------------------

/-- The image file behind its descriptor. Bytes of `data` from `length` on
are not part of the file. -/
structure Image where
  data : Memory
  length : Nat
  pos : Nat

namespace Image

/-- The file itself, whatever the descriptor's offset. -/
def Same (img img' : Image) : Prop :=
  img'.length = img.length ∧ ∀ o < img.length, img'.data o = img.data o

/-- A negative offset is refused and leaves the descriptor where it was. -/
def lseek (img : Image) (offset : Int) : Image :=
  if offset < 0 then img else { img with pos := offset.toNat }

/-- Reads up to `n` bytes into the start of `buf`: what lies past the end of
the file leaves the buffer as it was. -/
def read (img : Image) (n : Nat) (buf : Memory) : Memory × Image :=
  (fun k => if k < n ∧ img.pos + k < img.length then img.data (img.pos + k) else buf k,
    { img with pos := img.pos + min n (img.length - img.pos) })

/-- Writes the first `n` bytes of `buf`, `n ≠ 0`. A gap that the write leaves
behind the old end of the file reads as zeros. -/
def write (img : Image) (n : Nat) (buf : Memory) : Image where
  data o :=
    if img.pos ≤ o ∧ o < img.pos + n then buf (o - img.pos)
    else if o < img.length then img.data o else 0
  length := max img.length (img.pos + n)
  pos := img.pos + n

/-- `lseek` to a block: the offset is an `int` product. -/
def seekToBlock (img : Image) (blockNum : BitVec 32) : Image :=
  img.lseek (blockNum * BitVec.ofNat 32 BSIZE).toInt

@[simp] theorem lseek_data (img : Image) (offset : Int) : (img.lseek offset).data = img.data := by
  unfold lseek; split <;> rfl

@[simp] theorem lseek_length (img : Image) (offset : Int) :
    (img.lseek offset).length = img.length := by
  unfold lseek; split <;> rfl

@[simp] theorem seekToBlock_data (img : Image) (b : BitVec 32) :
    (img.seekToBlock b).data = img.data := lseek_data ..

@[simp] theorem seekToBlock_length (img : Image) (b : BitVec 32) :
    (img.seekToBlock b).length = img.length := lseek_length ..

theorem seekToBlock_pos (img : Image) (h : 512 * b.toNat < 2 ^ 31) :
    (img.seekToBlock b).pos = 512 * b.toNat := by
  have hb : (b * BitVec.ofNat 32 BSIZE).toInt = ((512 * b.toNat : Nat) : Int) := by
    have h1 : (b * BitVec.ofNat 32 BSIZE).toNat = 512 * b.toNat := by
      simp only [BitVec.toNat_mul, BitVec.toNat_ofNat, BSIZE]
      omega
    rw [BitVec.toInt_eq_toNat_of_lt (by omega), h1]
  unfold seekToBlock lseek
  rw [hb, if_neg (by omega)]
  exact Int.toNat_natCast _

@[simp] theorem read_data (img : Image) (n : Nat) (buf : Memory) :
    (img.read n buf).2.data = img.data := rfl

@[simp] theorem read_length (img : Image) (n : Nat) (buf : Memory) :
    (img.read n buf).2.length = img.length := rfl

end Image

end PerrOS.Fsck
