import Mathlib.Data.List.TakeWhile
import PerrOS.Lfs.Resolve

/-!
# Printing a file

What `runCat` prints: the file up to the first byte that compares equal to
`EOF` as a `char`.
-/

namespace PerrOS.Lfs

open Fsck (Byte Image)
open Lib

/-- The blocks that hold the first `size` bytes of the file are in the image,
each behind a pointer that is not zero. -/
structure Inode.Stored (inode : Inode) (img : Image) : Prop where
  size : inode.size ≤ NUM_PTRS_IN_INODE * BLOCK_SIZE
  ptr : ∀ i : Nat, i * BLOCK_SIZE < inode.size → 0 < inode.ptr i
  inside : ∀ k : Nat, k < inode.size →
    (inode.ptr (k / BLOCK_SIZE)).toNat + k % BLOCK_SIZE < img.length

/-- The first `size` bytes of the blocks of a file, one block after the other. -/
def Inode.bytes (inode : Inode) (img : Image) : List Byte :=
  (List.range inode.size.toNat).map fun k =>
    img.data ((inode.ptr (k / BLOCK_SIZE)).toNat + k % BLOCK_SIZE)

/-- `cat` prints the file and nothing else. -/
def PrintsFile (env : Env) (buff : Memory) (r : Reader) (inode : Inode) (img : Image) : Prop :=
  runCat env buff r = ⟨inode.bytes img, true⟩

variable {env : Env} {buff : Memory} {r r' : Reader} {inode : Inode} {img : Image}

/-- What the loop over the blocks has done after `n` of them. -/
structure Filled (inode : Inode) (img : Image) (n : Nat) (s : Memory × Image) : Prop where
  length : s.2.length = img.length
  data : s.2.data = img.data
  buff : ∀ k : Nat, k < inode.size → k < n * BLOCK_SIZE →
    s.1 k = img.data ((inode.ptr (k / BLOCK_SIZE)).toNat + k % BLOCK_SIZE)

theorem filled_readFile (h : inode.Stored img) (buff : Memory) :
    Filled inode img NUM_PTRS_IN_INODE (readFile inode buff img) := by
  unfold readFile
  refine loop_invariant (P := Filled inode img) ⟨rfl, rfl, fun k _ hk => ?_⟩ fun i s _ hs => ?_
  · rw [Nat.zero_mul] at hk
    exact absurd hk (Nat.not_lt_zero k)
  have hkeep (k : Nat) (hk : k < (i + 1) * BLOCK_SIZE) (hout : ¬ i * BLOCK_SIZE ≤ k) :
      k < i * BLOCK_SIZE := Nat.lt_of_not_le hout
  split
  · next hptr =>
    refine ⟨by simpa using hs.length, by simpa using hs.data, fun k hsize hk => ?_⟩
    dsimp only
    by_cases hin : i * BLOCK_SIZE ≤ k
    · -- the byte is read in this turn
      obtain ⟨j, rfl⟩ := Nat.exists_eq_add_of_le hin
      have hj : j < BLOCK_SIZE := by
        rw [Nat.succ_mul] at hk
        exact Nat.lt_of_add_lt_add_left hk
      have hdiv : (i * BLOCK_SIZE + j) / BLOCK_SIZE = i := by
        rw [Nat.mul_comm, Nat.mul_add_div (by decide), Nat.div_eq_of_lt hj, Nat.add_zero]
      have hmod : (i * BLOCK_SIZE + j) % BLOCK_SIZE = j := by
        rw [Nat.mul_comm, Nat.mul_add_mod, Nat.mod_eq_of_lt hj]
      have hlen := h.inside _ hsize
      have hpos := h.ptr i (by omega)
      rw [hdiv, hmod] at hlen ⊢
      rw [if_pos hin, Nat.add_sub_cancel_left]
      have hseek : (s.2.lseek (inode.ptr i)).pos = (inode.ptr i).toNat := by
        unfold Image.lseek
        rw [if_neg (by omega)]
      simp only [Image.read, hseek, Image.lseek_length, Image.lseek_data, hs.length, hs.data]
      rw [if_pos ⟨hj, hlen⟩]
    · rw [if_neg hin]
      exact hs.buff k hsize (hkeep k hk hin)
  · next hptr =>
    refine ⟨hs.length, hs.data, fun k hsize hk => ?_⟩
    by_cases hin : i * BLOCK_SIZE ≤ k
    · have hpos := h.ptr i (by omega)
      exact absurd hpos (by omega)
    · exact hs.buff k hsize (hkeep k hk hin)

/-- `cat` stops at the first byte that is 0xFF. -/
theorem runCat_eq (h : inspect env MFS_REGULAR_FILE r = some (inode, r'))
    (hs : inode.Stored r'.img) :
    runCat env buff r = ⟨(inode.bytes r'.img).takeWhile (· ≠ 0xFF), true⟩ := by
  have hfill := filled_readFile hs buff
  have hsize := hs.size
  unfold runCat
  rw [h]
  dsimp only
  congr 2
  refine List.map_congr_left fun k hk => ?_
  have hk := List.mem_range.mp hk
  exact hfill.buff k (by omega) (by omega)

-- Inode 1 is a file of two bytes, of which the second is `x`.
def twoBytes (x : Byte) : Image where
  data :=
    let zero : Memory := fun _ => 0
    let m := ((zero.write 4 4 1028).write 1032 4 1092).write 1092 4 2
    ((m.write 1096 4 1).write 1100 4 1156).write 1156 2 (104 + 256 * x.toNat)
  length := 5252
  pos := 0

def twoBytesReader (x : Byte) : Reader := { openImage (twoBytes x) with inspecteeINodeNum := 1 }

def twoBytesInode (x : Byte) : Inode × Reader := getInspecteeINode quiet (twoBytesReader x)

theorem twoBytes_inode : ∀ x ∈ [0x69, 0xFF], (twoBytesInode x).1.size = 2 ∧
    (twoBytesInode x).1.type = MFS_REGULAR_FILE ∧ (twoBytesInode x).1.ptr 0 = 1156 ∧
    (twoBytesInode x).2.img.length = 5252 ∧
    (twoBytesInode x).1.bytes (twoBytesInode x).2.img = [104, x] := by
  decide +kernel

theorem inspect_twoBytes {x : Byte} (hx : x ∈ [0x69, 0xFF]) :
    inspect quiet MFS_REGULAR_FILE (twoBytesReader x) =
      some ((twoBytesInode x).1, (twoBytesInode x).2) := by
  obtain ⟨hsize, htype, -⟩ := twoBytes_inode x hx
  have hnum : ¬ (twoBytesReader x).inspecteeINodeNum < 0 := by
    change ¬ (1 : Int) < 0
    decide
  unfold twoBytesInode at *
  unfold inspect
  rw [if_neg hnum]
  dsimp only
  rw [hsize, htype, if_neg (not_not.mpr rfl), if_neg (by decide)]

theorem twoBytes_stored {x : Byte} (hx : x ∈ [0x69, 0xFF]) :
    (twoBytesInode x).1.Stored (twoBytesInode x).2.img := by
  obtain ⟨hsize, -, hptr, hlen, -⟩ := twoBytes_inode x hx
  refine ⟨by rw [hsize]; decide, fun i hi => ?_, fun k hk => ?_⟩
  · unfold BLOCK_SIZE at hi
    obtain rfl : i = 0 := by omega
    rw [hptr]
    decide
  · have hk0 : k / BLOCK_SIZE = 0 := Nat.div_eq_of_lt (by unfold BLOCK_SIZE; omega)
    rw [hk0, hptr, hlen]
    have := Nat.mod_lt k (show 0 < BLOCK_SIZE by decide)
    unfold BLOCK_SIZE at *
    omega

end PerrOS.Lfs
