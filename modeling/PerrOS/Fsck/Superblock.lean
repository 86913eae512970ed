import PerrOS.Fsck.Image

/-!
# The superblock

What `mkfs` writes, and what `checkSuperblock` makes of it. The two compute
the layout by different formulas: `mkfs` counts one bitmap block for every
4096 blocks of the image, `checkSuperblock` counts a single one.
-/

namespace PerrOS.Fsck

open Lib

-- ---------------------------------------------------------------------------
-- mkfs
-- ---------------------------------------------------------------------------

def zeroes : Memory := fun _ => 0

/-- Writes one sector; the offset is a `long` product. -/
def wsect (sec : Nat) (buf : Memory) (fs : Image) : Image :=
  { fs with pos := sec * 512 }.write 512 buf

/-- The superblock `mkfs` lays out. -/
def mkfsSuperblock (nblocks ninodes size : BitVec 32) : Superblock := ⟨size, nblocks, ninodes⟩

/-- `none` is the failing assertion. -/
def mkfs (nblocks ninodes size : BitVec 32) (fs : Image) : Option Image :=
  let sb := mkfsSuperblock nblocks ninodes size
  let bitblocks := size.sdiv (512 * 8) + 1
  let usedblocks := (ninodes.signExtend 64 / BitVec.ofNat 64 IPB).setWidth 32 + 3 + bitblocks
  if nblocks + usedblocks = size then
    let fs := loop (nblocks + usedblocks).toNat (fun i => wsect i zeroes) fs
    some (wsect 1 sb.toBytes fs)
  else none

-- ---------------------------------------------------------------------------
-- checkSuperblock
-- ---------------------------------------------------------------------------

/-- What `checkSuperblock` leaves: its verdict, the superblock in memory and
the image. -/
structure Checked where
  valid : Bool
  super : Superblock
  image : Image

/-- `4 + (super->ninodes/IPB) + super->nblocks`, truncated to an `int`. -/
def Superblock.expectedSize (super : Superblock) : BitVec 32 :=
  4 + super.ninodes / BitVec.ofNat 32 IPB + super.nblocks

def Superblock.anyZero (super : Superblock) : Bool :=
  super.size = 0 ∨ super.nblocks = 0 ∨ super.ninodes = 0

/-- The tests `checkSuperblock` ends with. -/
def Superblock.sane (super : Superblock) : Bool :=
  super.size % BitVec.ofNat 32 BSIZE = 0 ∧
    ¬ (super.size < super.ninodes ∨ super.size < super.nblocks)

/-- The superblock that reading block 1 over `super` gives. -/
def readSuperblock (super : Superblock) (img : Image) : Superblock × Image :=
  let (buf, img) := (img.seekToBlock 1).read superblockSize super.toBytes
  (.ofBytes buf, img)

def checkSuperblock (super : Superblock) (img : Image) : Checked :=
  let (super, img) := readSuperblock super img
  if super.anyZero then ⟨false, super, img⟩
  else
    let expectedSize := super.expectedSize
    let (super, img) :=
      if super.size ≠ expectedSize then
        let super := { super with size := expectedSize }
        (super, (img.seekToBlock 1).write superblockSize super.toBytes)
      else (super, img)
    ⟨super.sane, super, img⟩

theorem Superblock.ofBytes_congr (h : ∀ k < superblockSize, b k = b' k) :
    Superblock.ofBytes b = Superblock.ofBytes b' := by
  have hr : ∀ a, a + 4 ≤ superblockSize → b.read a 4 = b'.read a 4 :=
    fun a ha => Memory.read_congr fun k _ hk => h k (by omega)
  unfold ofBytes
  rw [hr 0 (by decide), hr 4 (by decide), hr 8 (by decide)]

@[simp] theorem Superblock.ofBytes_toBytes (super : Superblock) : ofBytes super.toBytes = super := by
  have lt (x : BitVec 32) : x.toNat < 256 ^ 4 := x.isLt
  unfold ofBytes toBytes
  simp only [Memory.read_write_of_lt (lt _)]
  rw [Memory.read_write_disjoint (by omega), Memory.read_write_disjoint (by omega),
    Memory.read_write_of_lt (lt _), Memory.read_write_disjoint (by omega),
    Memory.read_write_of_lt (lt _)]
  simp

theorem seekToBlock_one_pos (img : Image) : (img.seekToBlock 1).pos = 512 :=
  img.seekToBlock_pos (by decide)

/-- The superblock as the image holds it: what lies past its end comes from
`super`. -/
theorem readSuperblock_fst (super : Superblock) (img : Image) :
    (readSuperblock super img).1 = .ofBytes fun k =>
      if k < superblockSize ∧ 512 + k < img.length then img.data (512 + k) else super.toBytes k := by
  simp only [readSuperblock, Image.read, seekToBlock_one_pos, Image.seekToBlock_length,
    Image.seekToBlock_data]

theorem readSuperblock_same (super : Superblock) (img : Image) :
    img.Same (readSuperblock super img).2 := by
  constructor <;> simp [readSuperblock]

/-- Reading an image that holds a whole superblock gives that superblock. -/
theorem readSuperblock_eq (hl : 512 + superblockSize ≤ img.length)
    (hd : ∀ k < superblockSize, img.data (512 + k) = sb.toBytes k) :
    (readSuperblock super img).1 = sb := by
  rw [readSuperblock_fst, ← sb.ofBytes_toBytes]
  refine Superblock.ofBytes_congr fun k hk => ?_
  rw [if_pos ⟨hk, by omega⟩, hd k hk]

theorem readSuperblock_length (super : Superblock) (img : Image) :
    (readSuperblock super img).2.length = img.length := (readSuperblock_same super img).1

theorem readSuperblock_data (super : Superblock) (img : Image) :
    (readSuperblock super img).2.data = img.data := by
  simp [readSuperblock]

-- ---------------------------------------------------------------------------
-- The repair
-- ---------------------------------------------------------------------------

/-- Writing a superblock other than the one just read changes the image. -/
theorem repair_changes (h : (readSuperblock super img).1 ≠ sb) :
    ¬ img.Same (((readSuperblock super img).2.seekToBlock 1).write superblockSize sb.toBytes) := by
  intro hs
  apply h
  have hl : 512 + superblockSize ≤ img.length := by
    have := hs.1
    simp only [Image.write, Image.seekToBlock_length, readSuperblock_length,
      seekToBlock_one_pos] at this
    omega
  refine readSuperblock_eq hl fun k hk => ?_
  have := hs.2 (512 + k) (by omega)
  simp only [Image.write, seekToBlock_one_pos] at this
  rw [if_pos ⟨by omega, by omega⟩, Nat.add_sub_cancel_left] at this
  exact this.symm

theorem checkSuperblock_of_zero (h : (readSuperblock super img).1.anyZero = true) :
    checkSuperblock super img =
      ⟨false, (readSuperblock super img).1, (readSuperblock super img).2⟩ := by
  simp [checkSuperblock, h]

theorem checkSuperblock_of_agrees (hz : (readSuperblock super img).1.anyZero = false)
    (h : (readSuperblock super img).1.size = (readSuperblock super img).1.expectedSize) :
    checkSuperblock super img = ⟨(readSuperblock super img).1.sane, (readSuperblock super img).1,
      (readSuperblock super img).2⟩ := by
  simp [checkSuperblock, hz, h.symm]

/-- The superblock with the size `checkSuperblock` expects. -/
def Superblock.repaired (super : Superblock) : Superblock :=
  { super with size := super.expectedSize }

theorem checkSuperblock_of_differs (hz : (readSuperblock super img).1.anyZero = false)
    (h : (readSuperblock super img).1.size ≠ (readSuperblock super img).1.expectedSize) :
    checkSuperblock super img = ⟨(readSuperblock super img).1.repaired.sane,
      (readSuperblock super img).1.repaired, ((readSuperblock super img).2.seekToBlock 1).write
        superblockSize (readSuperblock super img).1.repaired.toBytes⟩ := by
  simp [checkSuperblock, hz, h, Superblock.repaired]

/-- Once a nonzero superblock is rejected, nothing was written only if its size
was the expected one. -/
theorem checkSuperblock_same_iff (super : Superblock) (img : Image) :
    img.Same (checkSuperblock super img).image ↔
      ((readSuperblock super img).1.anyZero = true ∨
        (readSuperblock super img).1.size = (readSuperblock super img).1.expectedSize) := by
  cases hz : (readSuperblock super img).1.anyZero with
  | true =>
    rw [checkSuperblock_of_zero hz]
    simpa using readSuperblock_same super img
  | false =>
    by_cases he : (readSuperblock super img).1.size = (readSuperblock super img).1.expectedSize
    · rw [checkSuperblock_of_agrees hz he]
      simpa [he] using readSuperblock_same super img
    · rw [checkSuperblock_of_differs hz he]
      simp only [he, Bool.false_eq_true, or_self, iff_false]
      apply repair_changes
      intro h
      exact he (congrArg Superblock.size h)

-- ---------------------------------------------------------------------------
-- Agreement with mkfs
-- ---------------------------------------------------------------------------

/-- The parameters `mkfs` asserts to fit: `IPB` inodes and 4096 bitmap bits
to a block. -/
structure MkfsLayout (nblocks ninodes size : Nat) : Prop where
  nblocks_pos : 0 < nblocks
  ninodes_pos : 0 < ninodes
  size_pos : 0 < size
  nblocks_lt : nblocks < 2 ^ 31
  ninodes_lt : ninodes < 2 ^ 31
  size_lt : size < 2 ^ 31
  fits : nblocks + ninodes / IPB + 3 + size / (512 * 8) + 1 = size

/-- The superblock `mkfs` writes for the parameters. -/
def layoutSuperblock (nblocks ninodes size : Nat) : Superblock :=
  mkfsSuperblock (.ofNat 32 nblocks) (.ofNat 32 ninodes) (.ofNat 32 size)

/-- `checkSuperblock` accepts the image that `mkfs` makes of the file `fs`
and leaves its superblock alone. -/
def AcceptsMkfs (nblocks ninodes size : Nat) (fs : Image) : Prop :=
  ∃ img, mkfs (.ofNat 32 nblocks) (.ofNat 32 ninodes) (.ofNat 32 size) fs = some img ∧
    ∀ super, (checkSuperblock super img).valid = true ∧
      (checkSuperblock super img).super = layoutSuperblock nblocks ninodes size ∧
      img.Same (checkSuperblock super img).image

section Words

variable {n : Nat} (h : n < 2 ^ 31)
include h

theorem toNat_word : (BitVec.ofNat 32 n).toNat = n := by
  rw [BitVec.toNat_ofNat, Nat.mod_eq_of_lt (by omega)]

theorem msb_word : (BitVec.ofNat 32 n).msb = false := by
  rw [BitVec.msb_eq_decide, toNat_word h, decide_eq_false_iff_not]
  omega

theorem sdiv_word : ((BitVec.ofNat 32 n).sdiv (512 * 8)).toNat = n / 4096 := by
  have h4 : (512 * 8 : BitVec 32) = 4096#32 := rfl
  rw [h4, BitVec.sdiv_eq, msb_word h, show (4096#32).msb = false from rfl]
  simp only [BitVec.udiv_eq, BitVec.toNat_udiv, toNat_word h]
  rfl

theorem inodeBlocks_word :
    (((BitVec.ofNat 32 n).signExtend 64 / BitVec.ofNat 64 IPB).setWidth 32).toNat = n / 8 := by
  rw [BitVec.signExtend_eq_setWidth_of_msb_false (msb_word h)]
  simp only [BitVec.toNat_setWidth, BitVec.toNat_udiv, toNat_word h, BitVec.toNat_ofNat, IPB,
    BSIZE, dinodeSize, Nat.reducePow, Nat.reduceMod, Nat.reduceDiv]
  omega

end Words

/-- The assertion of `mkfs` holds of every layout. -/
theorem mkfs_of_layout (h : MkfsLayout nblocks ninodes size) (fs : Image) :
    ∃ fs', mkfs (.ofNat 32 nblocks) (.ofNat 32 ninodes) (.ofNat 32 size) fs =
      some (wsect 1 (layoutSuperblock nblocks ninodes size).toBytes fs') := by
  have hf := h.fits
  have hs := h.size_lt
  simp only [IPB, BSIZE, dinodeSize] at hf
  refine ⟨_, if_pos ?_⟩
  apply BitVec.eq_of_toNat_eq
  have h1 : (1 : BitVec 32).toNat = 1 := rfl
  have h3 : (3 : BitVec 32).toNat = 3 := rfl
  simp only [BitVec.toNat_add, inodeBlocks_word h.ninodes_lt, sdiv_word h.size_lt,
    toNat_word h.nblocks_lt, toNat_word h.size_lt, h1, h3]
  omega

theorem readSuperblock_wsect (super sb : Superblock) (fs : Image) :
    (readSuperblock super (wsect 1 sb.toBytes fs)).1 = sb := by
  refine readSuperblock_eq ?_ fun k hk => ?_
  · simp only [wsect, Image.write, superblockSize]
    omega
  · have hk : k < 12 := hk
    simp only [wsect, Image.write, Nat.one_mul]
    rw [if_pos ⟨by omega, by omega⟩, Nat.add_sub_cancel_left]

theorem expectedSize_of_layout (h : MkfsLayout nblocks ninodes size) :
    (layoutSuperblock nblocks ninodes size).expectedSize.toNat = size - size / 4096 := by
  have hf := h.fits
  have hs := h.size_lt
  have hn := h.ninodes_lt
  simp only [IPB, BSIZE, dinodeSize] at hf
  have h4 : (4 : BitVec 32).toNat = 4 := rfl
  simp only [Superblock.expectedSize, layoutSuperblock, mkfsSuperblock, BitVec.toNat_add,
    BitVec.toNat_udiv, toNat_word h.nblocks_lt, toNat_word h.ninodes_lt, h4, BitVec.toNat_ofNat,
    IPB, BSIZE, dinodeSize, Nat.reducePow, Nat.reduceMod, Nat.reduceDiv]
  omega

theorem not_anyZero_of_layout (h : MkfsLayout nblocks ninodes size) :
    (layoutSuperblock nblocks ninodes size).anyZero = false := by
  have ne (n : Nat) (h0 : 0 < n) (hn : n < 2 ^ 31) : BitVec.ofNat 32 n ≠ 0 := fun he => by
    have := congrArg BitVec.toNat he
    rw [toNat_word hn] at this
    exact absurd this (Nat.pos_iff_ne_zero.mp h0)
  simp only [Superblock.anyZero, layoutSuperblock, mkfsSuperblock, ne _ h.size_pos h.size_lt,
    ne _ h.nblocks_pos h.nblocks_lt, ne _ h.ninodes_pos h.ninodes_lt, or_self, decide_false]

theorem sane_of_layout (h : MkfsLayout nblocks ninodes size) :
    (layoutSuperblock nblocks ninodes size).sane = true ↔ size % 512 = 0 ∧ ninodes ≤ size := by
  have hf := h.fits
  simp only [IPB, BSIZE, dinodeSize] at hf
  have h0 : (0 : BitVec 32).toNat = 0 := rfl
  simp only [Superblock.sane, layoutSuperblock, mkfsSuperblock, decide_eq_true_eq,
    ← BitVec.toNat_inj, BitVec.lt_def, BitVec.toNat_umod, toNat_word h.size_lt,
    toNat_word h.nblocks_lt, toNat_word h.ninodes_lt, BitVec.toNat_ofNat, BSIZE, Nat.reducePow,
    Nat.reduceMod, h0]
  omega

/-- The images of `mkfs` that `checkSuperblock` accepts as they are. -/
theorem acceptsMkfs_iff (h : MkfsLayout nblocks ninodes size) (fs : Image) :
    AcceptsMkfs nblocks ninodes size fs ↔ size < 4096 ∧ size % 512 = 0 ∧ ninodes ≤ size := by
  obtain ⟨fs', hfs⟩ := mkfs_of_layout h fs
  have hr (super) := readSuperblock_wsect super (layoutSuperblock nblocks ninodes size) fs'
  have hz := not_anyZero_of_layout h
  have he : (layoutSuperblock nblocks ninodes size).size =
      (layoutSuperblock nblocks ninodes size).expectedSize ↔ size < 4096 := by
    rw [← BitVec.toNat_inj, expectedSize_of_layout h]
    simp only [layoutSuperblock, mkfsSuperblock, toNat_word h.size_lt]
    have := h.size_pos
    omega
  simp only [AcceptsMkfs, hfs, Option.some.injEq, exists_eq_left', checkSuperblock_same_iff, hr,
    hz, Bool.false_eq_true, false_or, he, ← sane_of_layout h]
  constructor
  · intro ha
    obtain ⟨hv, -, hlt⟩ := ha ⟨0, 0, 0⟩
    rw [checkSuperblock_of_agrees (by rw [hr, hz]) (by rw [hr, he]; exact hlt), hr] at hv
    exact ⟨hlt, hv⟩
  · rintro ⟨hlt, hv⟩ super
    rw [checkSuperblock_of_agrees (by rw [hr, hz]) (by rw [hr, he]; exact hlt), hr]
    exact ⟨hv, rfl, hlt⟩

/-- A rejected image is left as it was. -/
def RejectsUntouched (super : Superblock) (img : Image) : Prop :=
  (checkSuperblock super img).valid = false → img.Same (checkSuperblock super img).image

theorem rejectsUntouched_iff (super : Superblock) (img : Image) :
    RejectsUntouched super img ↔
      ((readSuperblock super img).1.anyZero = true ∨
        (readSuperblock super img).1.size = (readSuperblock super img).1.expectedSize ∨
        (readSuperblock super img).1.repaired.sane = true) := by
  rw [RejectsUntouched, checkSuperblock_same_iff, ← or_assoc]
  by_cases h : (readSuperblock super img).1.anyZero = true ∨
      (readSuperblock super img).1.size = (readSuperblock super img).1.expectedSize
  · simp [h]
  · obtain ⟨hz, he⟩ := not_or.mp h
    rw [checkSuperblock_of_differs (Bool.not_eq_true _ ▸ hz) he]
    simp [h]

/-- `checkSuperblock` and `mkfs` agree exactly on the images below 4096 blocks
whose size is a multiple of 512 and not less than the number of inodes; a
rejected superblock was rewritten on disk unless a field is zero, its size is
the expected one or the repaired superblock is sane. -/
theorem superblock_agreement (nblocks ninodes size : Nat) (fs : Image) (super : Superblock)
    (img : Image) :
    (MkfsLayout nblocks ninodes size →
      (AcceptsMkfs nblocks ninodes size fs ↔ size < 4096 ∧ size % 512 = 0 ∧ ninodes ≤ size)) ∧
    (RejectsUntouched super img ↔
      ((readSuperblock super img).1.anyZero = true ∨
        (readSuperblock super img).1.size = (readSuperblock super img).1.expectedSize ∨
        (readSuperblock super img).1.repaired.sane = true)) :=
  ⟨fun h => acceptsMkfs_iff h fs, rejectsUntouched_iff super img⟩

/-- The empty file `mkfs` starts from. -/
def emptyFile : Image := ⟨fun _ => 0, 0, 0⟩

/-- An image of 8192 blocks has three bitmap blocks in `mkfs` and one in
`checkSuperblock`, which rewrites its size as 8190 and rejects it. -/
theorem superblock_disagreement :
    MkfsLayout 8185 8 8192 ∧ ¬ AcceptsMkfs 8185 8 8192 emptyFile ∧
      ∃ img, mkfs 8185 8 8192 emptyFile = some img ∧ ¬ RejectsUntouched ⟨0, 0, 0⟩ img := by
  have hl : MkfsLayout 8185 8 8192 := by constructor <;> decide
  refine ⟨hl, fun h => ?_, ?_⟩
  · rw [acceptsMkfs_iff hl] at h
    exact absurd h.1 (by decide)
  · obtain ⟨fs', hfs⟩ := mkfs_of_layout hl emptyFile
    refine ⟨_, hfs, ?_⟩
    rw [rejectsUntouched_iff, readSuperblock_wsect]
    decide

theorem superblock_agreement_small : AcceptsMkfs 507 8 512 emptyFile :=
  ((superblock_agreement 507 8 512 emptyFile ⟨0, 0, 0⟩ emptyFile).1 (by constructor <;> decide)).mpr
    (by decide)

end PerrOS.Fsck
