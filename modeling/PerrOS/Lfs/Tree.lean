import PerrOS.Lfs.Reader

/-!
# The directory tree of an image

What an image means, read off its bytes without a descriptor: the inode behind
a number, the entries of a directory, the walk of a path. On a well-formed
image the reader's buffers hold what these functions say.
-/

namespace PerrOS.Lfs

open Fsck (Byte Image)
open Lib

-- ---------------------------------------------------------------------------
-- Inodes and entries
-- ---------------------------------------------------------------------------

/-- Where the piece of the inode map for `n` lies. -/
def mapPtr (img : Image) (n : Nat) : Int := int img.data (4 + 4 * (n / 16))

def inodePtr (img : Image) (n : Nat) : Int := int img.data ((mapPtr img n).toNat + 4 * (n % 16))

def inodeAt (img : Image) (n : Nat) : Inode :=
  .ofBytes fun k => img.data ((inodePtr img n).toNat + k)

def IsDirectory (img : Image) (d : Nat) : Prop := (inodeAt img d).type = MFS_DIRECTORY

/-- The block `i` of the inode `d`. -/
def block (img : Image) (d i : Nat) : Memory := fun k =>
  img.data (((inodeAt img d).ptr i).toNat + k)

/-- The entry `j` of the block `i` of `d` gives the name `w` to the inode `n`. -/
structure Slot (img : Image) (d i j : Nat) (w : List Byte) (n : Nat) : Prop where
  block_lt : i < NUM_PTRS_IN_INODE
  entry_lt : j < DIRECTORY_SIZE
  ptr_pos : 0 < (inodeAt img d).ptr i
  inum : inum (block img d i) j = n
  name : NameIs (block img d i) (dirEntSize * j) w

def Entry (img : Image) (d : Nat) (w : List Byte) (n : Nat) : Prop := ∃ i j, Slot img d i j w n

/-- The inodes that a walk from the root can reach. -/
inductive Named (img : Image) : Nat → Prop
  | root : Named img 0
  | entry : Named img d → IsDirectory img d → Entry img d w n → Named img n

structure WellFormed (img : Image) : Prop where
  pos : img.pos = 0
  checkpoint : checkpointSize ≤ img.length
  root : IsDirectory img 0
  number : ∀ n, Named img n → n < 16 * INODEPIECES
  map : ∀ n, Named img n → 0 ≤ mapPtr img n ∧ (mapPtr img n).toNat + inodeSize ≤ img.length
  inode : ∀ n, Named img n → 0 ≤ inodePtr img n ∧ (inodePtr img n).toNat + inodeSize ≤ img.length
  type : ∀ n, Named img n →
    (inodeAt img n).type = MFS_DIRECTORY ∨ (inodeAt img n).type = MFS_REGULAR_FILE
  size : ∀ n, Named img n → 0 ≤ (inodeAt img n).size
  block : ∀ d, Named img d → IsDirectory img d → ∀ i < NUM_PTRS_IN_INODE,
    0 < (inodeAt img d).ptr i → ((inodeAt img d).ptr i).toNat + BLOCK_SIZE ≤ img.length
  name : ∀ d, Named img d → IsDirectory img d → ∀ i < NUM_PTRS_IN_INODE,
    0 < (inodeAt img d).ptr i → ∀ j < DIRECTORY_SIZE, 0 ≤ inum (Lfs.block img d i) j →
      ∃ w, NameIs (Lfs.block img d i) (dirEntSize * j) w
  unique : ∀ d, Named img d → IsDirectory img d → ∀ i j w n i' j' n', Slot img d i j w n →
    Slot img d i' j' w n' → i = i' ∧ j = j'

-- ---------------------------------------------------------------------------
-- Paths
-- ---------------------------------------------------------------------------

/-- The components of a path, without the empty ones. -/
def components (path : List Byte) : List (List Byte) := (path.splitOn slash).filter (· ≠ [])

/-- Walking the components from `d`, through directories, ends at `n`. -/
inductive Resolves (img : Image) : Nat → List (List Byte) → Nat → Prop
  | here : Resolves img n [] n
  | step : IsDirectory img d → Entry img d w m → Resolves img m ws n → Resolves img d (w :: ws) n

theorem Resolves.append_iff : Resolves img d (us ++ ws) n ↔
    ∃ e, Resolves img d us e ∧ Resolves img e ws n := by
  induction us generalizing d with
  | nil =>
    constructor
    · exact fun h => ⟨d, .here, h⟩
    · rintro ⟨_, ⟨⟩, h⟩
      exact h
  | cons u us ih =>
    constructor
    · rintro (_ | ⟨hdir, hentry, h⟩)
      obtain ⟨e, hus, hws⟩ := ih.mp h
      exact ⟨e, .step hdir hentry hus, hws⟩
    · rintro ⟨e, _ | ⟨hdir, hentry, hus⟩, hws⟩
      exact .step hdir hentry (ih.mpr ⟨e, hus, hws⟩)

theorem Resolves.one_iff : Resolves img d [w] n ↔ IsDirectory img d ∧ Entry img d w n := by
  constructor
  · rintro (_ | ⟨hdir, hentry, ⟨⟩⟩)
    exact ⟨hdir, hentry⟩
  · exact fun ⟨hdir, hentry⟩ => .step hdir hentry .here

theorem Entry.unique (hwf : WellFormed img) (hd : Named img d) (hdir : IsDirectory img d)
    (h : Entry img d w n) (h' : Entry img d w n') : n = n' := by
  obtain ⟨i, j, h⟩ := h
  obtain ⟨i', j', h'⟩ := h'
  obtain ⟨rfl, rfl⟩ := hwf.unique d hd hdir i j w n i' j' n' h h'
  exact Int.ofNat_inj.mp (h.inum.symm.trans h'.inum)

-- ---------------------------------------------------------------------------
-- Buffers
-- ---------------------------------------------------------------------------

theorem int_congr (h : ∀ k < 4, m (a + k) = m' (a' + k)) : int m a = int m' a' := by
  unfold int
  have hr (k n : Nat) (hk : k + n ≤ 4) : m.read (a + k) n = m'.read (a' + k) n := by
    induction n generalizing k with
    | zero => rfl
    | succ n ih =>
      rw [Memory.read, Memory.read, h k (by omega), Nat.add_assoc, Nat.add_assoc,
        ih (k + 1) (by omega)]
  rw [← Nat.add_zero a, ← Nat.add_zero a', hr 0 4 (by decide)]

/-- Two inodes with one type, one size and the same block pointers. -/
structure Inode.Same (ino ino' : Inode) : Prop where
  size : ino.size = ino'.size
  type : ino.type = ino'.type
  ptr : ∀ i < NUM_PTRS_IN_INODE, ino.ptr i = ino'.ptr i

theorem Inode.Same.ofBytes (h : ∀ k < inodeSize, m k = m' k) :
    Inode.Same (.ofBytes m) (.ofBytes m') := by
  have hi (a : Nat) (ha : a + 4 ≤ inodeSize) : int m a = int m' a :=
    int_congr fun k hk => h (a + k) (by omega)
  constructor
  · simp only [Inode.ofBytes]
    exact hi 0 (by decide)
  · simp only [Inode.ofBytes]
    exact hi 4 (by decide)
  · intro i hlt
    simp only [Inode.ofBytes]
    refine hi _ ?_
    simp only [NUM_PTRS_IN_INODE, inodeSize] at *
    omega

/-- The reader works on the image and holds its checkpoint region. -/
structure Opened (img : Image) (r : Reader) : Prop where
  data : r.img.data = img.data
  length : r.img.length = img.length
  region : ∀ k < checkpointSize, r.myCheckpointRegion k = img.data k

theorem Opened.calls (h : Opened img r) (n : Nat) : Opened img { r with calls := n } :=
  ⟨h.data, h.length, h.region⟩

theorem Opened.openImage (hwf : WellFormed img) : Opened img (openImage img) := by
  refine ⟨rfl, rfl, fun k hk => ?_⟩
  have hlen := hwf.checkpoint
  simp only [Lfs.openImage, Image.read, hwf.pos, Nat.zero_add]
  exact if_pos ⟨hk, by omega⟩

/-- A read of bytes the image has, from where the seek went. -/
theorem read_lseek {img : Image} (h : 0 ≤ p) (hlen : p.toNat + n ≤ img.length) (hk : k < n) :
    ((img.lseek p).read n buf).1 k = img.data (p.toNat + k) := by
  simp only [Image.read, Image.lseek, if_neg (Int.not_lt.mpr h)]
  exact if_pos ⟨hk, by omega⟩

theorem load_opened (env : Env) (h : Opened img r) (n : Int) (buf : Memory × Memory) :
    Opened img (load env n buf r).2 :=
  ⟨by simp [load, h.data], by simp [load, h.length], h.region⟩

theorem load_same (env : Env) (hwf : WellFormed img) (h : Opened img r) (hn : Named img n)
    (buf : Memory × Memory) : Inode.Same (.ofBytes (load env n buf r).1.2) (inodeAt img n) := by
  have hlt := hwf.number n hn
  obtain ⟨hmap, hmaplen⟩ := hwf.map n hn
  obtain ⟨hino, hinolen⟩ := hwf.inode n hn
  have hindex : getIMapPtr env r n = mapPtr img n := by
    have hdiv : calcIMapPtr n = ((n / 16 : Nat) : Int) := rfl
    have hbound : n / 16 < INODEPIECES := Nat.div_lt_of_lt_mul hlt
    simp only [getIMapPtr, hdiv, Int.toNat_natCast]
    rw [if_pos ⟨by omega, by omega⟩]
    refine int_congr fun k hk => h.region _ ?_
    simp only [INODEPIECES, checkpointSize] at *
    omega
  have hptr (i : Memory) (hi : ∀ k < inodeSize, i k = img.data ((mapPtr img n).toNat + k)) :
      getINodePtr env i n = inodePtr img n := by
    have hmod : calcINodePtr n = ((n % 16 : Nat) : Int) := rfl
    simp only [getINodePtr, hmod, Int.toNat_natCast]
    rw [if_pos (by omega)]
    refine int_congr fun k hk => ?_
    rw [Nat.add_assoc]
    refine hi _ ?_
    simp only [inodeSize]
    omega
  refine Inode.Same.ofBytes fun k hk => ?_
  simp only [load, hindex]
  rw [hptr _ fun k hk => ?_]
  · rw [read_lseek hino (by simpa [h.length] using hinolen) hk]
    simp [h.data]
  · rw [read_lseek hmap (by simpa [h.length] using hmaplen) hk, h.data]

end PerrOS.Lfs
