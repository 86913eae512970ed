import PerrOS.Fsck.Walk

/-!
# The directories of a volume

What the disk and the inode table say about directories: their blocks, their
entries and the directories that can be reached from the root. Reading and
writing a directory's blocks is stated in these terms.
-/

namespace PerrOS.Fsck

open Lib Function

/-- A disk and an inode table. -/
structure Volume where
  data : Memory
  inode : Nat → Dinode

def Globals.volume (s : Globals) : Volume := ⟨s.image.data, s.myInodes⟩

/-- Byte `o` of the disk is in block `b`. -/
def InBlock (b : BitVec 32) (o : Nat) : Prop := o / BSIZE = b.toNat

/-- The image holds block `b`, and its offset fits an `int`. -/
structure OnDisk (length : Nat) (b : BitVec 32) : Prop where
  holds : BSIZE * (b.toNat + 1) ≤ length
  seekable : BSIZE * b.toNat < 2 ^ 31

namespace Volume

variable (v : Volume)

/-- Entry `j` of the indirect block `a`. -/
def indirect (a : BitVec 32) (j : Nat) : BitVec 32 :=
  .ofNat 32 (v.data.read (BSIZE * a.toNat + 4 * j) 4)

/-- The number of block `k` of directory `d`, or 0. -/
def block (d k : Nat) : BitVec 32 :=
  if k < NDIRECT then (v.inode d).addrs k
  else if k < NDIRECT + NINDIRECT ∧ (v.inode d).addrs NDIRECT ≠ 0 then
    v.indirect ((v.inode d).addrs NDIRECT) (k - NDIRECT)
  else 0

/-- The bytes of a directory; a block that is not there reads as zeros. -/
def content (d : Nat) : Memory := fun o =>
  if v.block d (o / BSIZE) = 0 then 0
  else v.data (BSIZE * (v.block d (o / BSIZE)).toNat + o % BSIZE)

def count (d : Nat) : Nat := (v.inode d).size.toNat / direntSize

end Volume

/-- The name of entry `i` is `.` or `..`. -/
def Dots (dir : Memory) (i : Nat) : Prop :=
  nameAt dir i = dot ∧ (dir (direntSize * i + 3) = 0 ∨
    dir (direntSize * i + 3) = dot ∧ dir (direntSize * i + 4) = 0)

instance (dir : Memory) (i : Nat) : Decidable (Dots dir i) :=
  inferInstanceAs (Decidable (nameAt dir i = dot ∧ (dir (direntSize * i + 3) = 0 ∨
    dir (direntSize * i + 3) = dot ∧ dir (direntSize * i + 4) = 0)))

namespace Volume

variable (v : Volume)

def inum (d i : Nat) : Nat := inumAt (v.content d) i

/-- A used entry: its inode number is not zero and its name is not `.` or
`..`. -/
structure Used (d i : Nat) : Prop where
  lt : i < v.count d
  inum : v.inum d i ≠ 0
  name : ¬ Dots (v.content d) i

/-- Entry `i` of `d` is a used entry for the directory `e`. -/
structure Child (d i e : Nat) : Prop where
  used : v.Used d i
  inum : v.inum d i = e
  type : (v.inode e).type = T_DIR

/-- The directories reachable from the root. -/
inductive Reach : Nat → Prop
  | root : Reach ROOTINO
  | child (d i e : Nat) : Reach d → v.Child d i e → Reach e

/-- A block number that a directory holds: its indirect block or one of its
blocks. -/
def Holds (d : Nat) (b : BitVec 32) : Prop :=
  b ≠ 0 ∧ (b = (v.inode d).addrs NDIRECT ∨ ∃ k, v.block d k = b)

theorem Holds.of_block {v : Volume} (h : v.block d k ≠ 0) : v.Holds d (v.block d k) :=
  ⟨h, .inr ⟨k, rfl⟩⟩

theorem Holds.of_indirect {v : Volume} (h : (v.inode d).addrs NDIRECT ≠ 0) :
    v.Holds d ((v.inode d).addrs NDIRECT) := ⟨h, .inl rfl⟩

/-- The blocks of a directory are listed once each. -/
structure Distinct (d : Nat) : Prop where
  block : ∀ k k', v.block d k ≠ 0 → v.block d k = v.block d k' → k = k'
  indirect : ∀ k, v.block d k ≠ 0 → v.block d k ≠ (v.inode d).addrs NDIRECT

theorem block_direct (d : Nat) (hk : k < NDIRECT) : v.block d k = (v.inode d).addrs k := if_pos hk

theorem block_indirect (d : Nat) (hj : j < NINDIRECT) (h : (v.inode d).addrs NDIRECT ≠ 0) :
    v.block d (NDIRECT + j) = v.indirect ((v.inode d).addrs NDIRECT) j := by
  unfold block
  rw [if_neg (by omega), if_pos ⟨by omega, h⟩, Nat.add_sub_cancel_left]

theorem block_none (d : Nat) (hk : NDIRECT ≤ k)
    (h : NDIRECT + NINDIRECT ≤ k ∨ (v.inode d).addrs NDIRECT = 0) : v.block d k = 0 := by
  unfold block
  rw [if_neg (by omega), if_neg]
  rintro ⟨hlt, hne⟩
  exact h.elim (by omega) hne

theorem lt_of_block {v : Volume} (h : v.block d k ≠ 0) : k < NDIRECT + NINDIRECT := by
  by_contra hge
  exact h (v.block_none d (by omega) (.inl (Nat.not_lt.mp hge)))

/-- Two volumes list the same blocks for directory `d`. -/
structure SameMap (v v' : Volume) (d : Nat) : Prop where
  size : (v'.inode d).size = (v.inode d).size
  addrs : ∀ j ≤ NDIRECT, (v'.inode d).addrs j = (v.inode d).addrs j
  entries : (v.inode d).addrs NDIRECT ≠ 0 → ∀ o, InBlock ((v.inode d).addrs NDIRECT) o →
    v'.data o = v.data o

/-- Two volumes have the same directory `d`. -/
structure SameDir (v v' : Volume) (d : Nat) : Prop extends SameMap v v' d where
  blocks : ∀ k, v.block d k ≠ 0 → ∀ o, InBlock (v.block d k) o → v'.data o = v.data o

section SameMap

variable {v v' : Volume}

theorem SameMap.count (h : SameMap v v' d) : v'.count d = v.count d := by
  unfold Volume.count
  rw [h.size]

theorem SameMap.indirect (h : SameMap v v' d) (ha : (v.inode d).addrs NDIRECT ≠ 0)
    (hj : j < NINDIRECT) :
    v'.indirect ((v.inode d).addrs NDIRECT) j = v.indirect ((v.inode d).addrs NDIRECT) j := by
  unfold Volume.indirect
  congr 1
  refine Memory.read_congr fun o hl hh => h.entries ha o ?_
  have hj : j < 128 := hj
  unfold InBlock
  simp only [BSIZE] at hl hh ⊢
  omega

theorem SameMap.block (h : SameMap v v' d) (k : Nat) : v'.block d k = v.block d k := by
  have hi := h.addrs NDIRECT (le_refl _)
  by_cases hk : k < NDIRECT
  · rw [block_direct _ _ hk, block_direct _ _ hk, h.addrs k (Nat.le_of_lt hk)]
  · by_cases hn : NDIRECT + NINDIRECT ≤ k ∨ (v.inode d).addrs NDIRECT = 0
    · rw [block_none _ _ (Nat.not_lt.mp hk) hn, block_none _ _ (Nat.not_lt.mp hk) (by rwa [hi])]
    · obtain ⟨hlt, ha⟩ := not_or.mp hn
      have hk' : NDIRECT + (k - NDIRECT) = k := by omega
      rw [← hk', block_indirect _ _ (by omega) (by rwa [hi]), block_indirect _ _ (by omega) ha, hi,
        h.indirect ha (by omega)]

theorem SameMap.holds (h : SameMap v v' d) : v'.Holds d b ↔ v.Holds d b := by
  unfold Holds
  rw [h.addrs NDIRECT (le_refl _)]
  simp only [h.block]

theorem SameMap.distinct (h : SameMap v v' d) (hd : v.Distinct d) : v'.Distinct d := by
  constructor
  · simp only [h.block]
    exact hd.block
  · simp only [h.block, h.addrs NDIRECT (le_refl _)]
    exact hd.indirect

theorem SameDir.content (h : SameDir v v' d) : v'.content d = v.content d := by
  funext o
  unfold Volume.content
  rw [h.block]
  split
  · rfl
  · rename_i hb
    refine h.blocks _ hb _ ?_
    unfold InBlock BSIZE
    omega

end SameMap

end Volume

-- ---------------------------------------------------------------------------
-- Entries
-- ---------------------------------------------------------------------------

section Entries

variable {dir dir' : Memory} {i : Nat}

/-- Two buffers have the same entry `i`. -/
def SameEntry (dir dir' : Memory) (i : Nat) : Prop :=
  ∀ o, direntSize * i ≤ o → o < direntSize * (i + 1) → dir o = dir' o

theorem SameEntry.symm (h : SameEntry dir dir' i) : SameEntry dir' dir i :=
  fun o hl hh => (h o hl hh).symm

theorem SameEntry.trans (h : SameEntry dir dir' i) (h' : SameEntry dir' dir'' i) :
    SameEntry dir dir'' i := fun o hl hh => (h o hl hh).trans (h' o hl hh)

theorem SameEntry.inumAt (h : SameEntry dir dir' i) : inumAt dir i = inumAt dir' i := by
  refine Memory.read_congr fun o hl hh => h o hl ?_
  unfold direntSize at *
  omega

theorem SameEntry.byte (h : SameEntry dir dir' i) (hk : k < direntSize) :
    dir (direntSize * i + k) = dir' (direntSize * i + k) :=
  h _ (Nat.le_add_right ..) (by rw [Nat.mul_succ]; omega)

theorem SameEntry.nameAt (h : SameEntry dir dir' i) : nameAt dir i = nameAt dir' i :=
  h.byte (k := 2) (by decide)

theorem SameEntry.dots (h : SameEntry dir dir' i) : Dots dir i ↔ Dots dir' i := by
  unfold Dots
  rw [h.nameAt, h.byte (k := 3) (by decide), h.byte (k := 4) (by decide)]

theorem Dots.nameAt (h : Dots dir i) : nameAt dir i = dot := h.1

theorem inumAt_of_zero (h : SameEntry dir (fun _ => 0) i) : inumAt dir i = 0 :=
  h.inumAt.trans (by simp [Fsck.inumAt, Memory.read])

theorem sameEntry_clearEntry (hi : j ≠ i) (dir : Memory) : SameEntry (clearEntry i dir) dir j := by
  intro o hl hh
  unfold clearEntry
  rw [if_neg]
  unfold direntSize at *
  omega

theorem clearEntry_same (i : Nat) (dir : Memory) : SameEntry (clearEntry i dir) (fun _ => 0) i := by
  intro o hl hh
  exact if_pos ⟨hl, hh⟩

theorem sameEntry_setDots (hi : 2 ≤ i) (p g : Nat) (dir : Memory) :
    SameEntry (setDots p g dir) dir i := by
  intro o hl hh
  refine setDots_outside (Nat.le_trans ?_ hl) p g dir
  rw [Nat.mul_comm]
  exact Nat.mul_le_mul_left _ hi

theorem dots_setDots (h : i < 2) (p g : Nat) (dir : Memory) : Dots (setDots p g dir) i := by
  refine ⟨nameAt_setDots h p g dir, ?_⟩
  simp only [setDots, setInum, setName, List.zipIdx, List.foldl, direntSize]
  obtain rfl | rfl : i = 0 ∨ i = 1 := by omega
  · left
    rw [Memory.write_outside (by omega), update_of_ne (by omega), update_of_ne (by omega),
      update_of_ne (by omega), Memory.write_outside (by omega)]
    exact update_self ..
  · right
    rw [Memory.write_outside (by omega), update_of_ne (by omega), Memory.write_outside (by omega)]
    exact ⟨update_self .., update_self ..⟩

end Entries

-- ---------------------------------------------------------------------------
-- Reading
-- ---------------------------------------------------------------------------

section Blocks

variable {s t : Globals} {addr : Nat → BitVec 32} {p : Nat → Prop} [DecidablePred p]
variable {n k0 bytes : Nat} {dir : Memory} {b : BitVec 32}

theorem OnDisk.seek (h : OnDisk length b) (img : Image) :
    (img.seekToBlock b).pos = BSIZE * b.toNat := img.seekToBlock_pos h.seekable

theorem readBlock_fst (h : OnDisk s.image.length b) (k bytes : Nat) (dir : Memory) (o : Nat) :
    (readBlock b k bytes (dir, s)).1 o =
      if o / BSIZE = k then s.image.data (BSIZE * b.toNat + o % BSIZE) else dir o := by
  have hlen := h.holds
  simp only [readBlock, Image.read, h.seek, Image.seekToBlock_length, Image.seekToBlock_data]
  by_cases ho : o / BSIZE = k
  · have hin : BSIZE * k ≤ o ∧ o < BSIZE * (k + 1) := by
      unfold BSIZE at *
      omega
    have hoff : o - BSIZE * k = o % BSIZE := by
      unfold BSIZE at *
      omega
    have hread : o % BSIZE < BSIZE ∧ BSIZE * b.toNat + o % BSIZE < s.image.length := by
      unfold BSIZE at *
      omega
    rw [if_pos hin, hoff, if_pos hread, if_pos ho]
  · have hout : ¬ (BSIZE * k ≤ o ∧ o < BSIZE * (k + 1)) := by
      unfold BSIZE at *
      omega
    rw [if_neg hout, if_neg ho]

/-- A loop that reads the blocks it has numbers of. -/
theorem readBlocks (addr : Nat → BitVec 32) (p : Nat → Prop) [DecidablePred p] (n k0 bytes : Nat)
    (r : Memory × Globals) (hp : ∀ j < n, p j ↔ addr j ≠ 0)
    (hon : ∀ j < n, addr j ≠ 0 → OnDisk r.2.image.length (addr j)) :
    let t := loop n (fun j r => if p j then readBlock (addr j) (k0 + j) bytes r else r) r
    t.2.image.data = r.2.image.data ∧ t.2.image.length = r.2.image.length ∧ ∀ o, t.1 o =
      if k0 ≤ o / BSIZE ∧ o / BSIZE < k0 + n ∧ addr (o / BSIZE - k0) ≠ 0 then
        r.2.image.data (BSIZE * (addr (o / BSIZE - k0)).toNat + o % BSIZE)
      else r.1 o := by
  intro t
  -- the blocks before `j` are read
  refine loop_invariant (n := n) (s := r)
    (P := fun m u => u.2.image.data = r.2.image.data ∧ u.2.image.length = r.2.image.length ∧
      ∀ o, u.1 o = if k0 ≤ o / BSIZE ∧ o / BSIZE < k0 + m ∧ addr (o / BSIZE - k0) ≠ 0 then
        r.2.image.data (BSIZE * (addr (o / BSIZE - k0)).toNat + o % BSIZE) else r.1 o)
    ⟨rfl, rfl, fun o => by rw [if_neg (by omega)]⟩ ?_
  rintro j ⟨m, u⟩ hj ⟨hd, hl, hm⟩
  dsimp only at hd hl hm ⊢
  have hsame (o : Nat) (hz : o / BSIZE = k0 + j → addr j = 0) :
      (k0 ≤ o / BSIZE ∧ o / BSIZE < k0 + j ∧ addr (o / BSIZE - k0) ≠ 0) ↔
        (k0 ≤ o / BSIZE ∧ o / BSIZE < k0 + (j + 1) ∧ addr (o / BSIZE - k0) ≠ 0) := by
    constructor
    · rintro ⟨h1, h2, h3⟩
      exact ⟨h1, by omega, h3⟩
    · rintro ⟨h1, h2, h3⟩
      refine ⟨h1, ?_, h3⟩
      by_contra hge
      exact h3 (by rw [show o / BSIZE - k0 = j by omega, hz (by omega)])
  by_cases hpj : p j
  · have hne := (hp j hj).mp hpj
    have hdisk := hl ▸ hon j hj hne
    rw [if_pos hpj]
    refine ⟨?_, ?_, fun o => ?_⟩
    · simp [readBlock, hd]
    · simp [readBlock, hl]
    · rw [readBlock_fst hdisk, hm, hd]
      by_cases ho : o / BSIZE = k0 + j
      · have hsub : o / BSIZE - k0 = j := by omega
        rw [if_pos ho, if_pos ⟨by omega, by omega, by rwa [hsub]⟩, hsub]
      · rw [if_neg ho]
        simp only [hsame o fun h => absurd h ho]
  · have hz : addr j = 0 := by
      by_contra hne
      exact hpj ((hp j hj).mpr hne)
    rw [if_neg hpj]
    refine ⟨hd, hl, fun o => ?_⟩
    dsimp only
    rw [hm]
    simp only [hsame o fun _ => hz]

/-- The entries of an indirect block on disk. -/
theorem readIndirect_fst (h : OnDisk s.image.length b) (hj : j < NINDIRECT) :
    (readIndirect b s).1 j = s.volume.indirect b j := by
  have hlen := h.holds
  have hj : j < 128 := hj
  unfold readIndirect Volume.indirect
  dsimp only [Image.read]
  rw [h.seek]
  congr 1
  have hshift : Memory.read (fun k => s.image.data (BSIZE * b.toNat + k)) (4 * j) 4 =
      s.volume.data.read (BSIZE * b.toNat + 4 * j) 4 := by
    simp only [Memory.read, Globals.volume, Nat.add_assoc]
  rw [← hshift]
  refine Memory.read_congr fun k hl hh => ?_
  simp only [Image.seekToBlock_length, Image.seekToBlock_data, BSIZE] at hlen ⊢
  rw [if_pos (by omega)]

/-- The blocks of directory `d` can be read and written. -/
def Reads (s : Globals) (d : Nat) : Prop := ∀ b, s.volume.Holds d b → OnDisk s.image.length b

theorem pos_iff_ne_zero (a : BitVec 32) : 0 < a ↔ a ≠ 0 := by
  rw [BitVec.lt_def, ne_eq, ← BitVec.toNat_inj]
  exact Nat.pos_iff_ne_zero

/-- `fixBadInodeTypes` reads the content of its directory. -/
theorem readDirectory_fst (h : Reads s d) (bytes : Nat) :
    (readDirectory (s.myInodes d) bytes s).1 = s.volume.content d := by
  have hdirect := readBlocks (s.myInodes d).addrs (fun k => 0 < (s.myInodes d).addrs k) NDIRECT 0
    bytes (fun _ => 0, s) (fun j _ => pos_iff_ne_zero _) fun j hj hne => by
      have hb := Volume.block_direct s.volume d hj
      exact h _ (hb ▸ .of_block (by rwa [hb]))
  simp only [Nat.zero_add, Nat.zero_le, true_and, Nat.sub_zero] at hdirect
  obtain ⟨hdata, hlen, hdir⟩ := hdirect
  unfold readDirectory
  dsimp only
  generalize loop NDIRECT (fun k r => if 0 < (s.myInodes d).addrs k then
    readBlock ((s.myInodes d).addrs k) k bytes r else r) ((fun _ => 0 : Memory), s) = r at *
  have hlow (o : Nat) (ho : o / BSIZE < NDIRECT) : r.1 o = s.volume.content d o := by
    rw [hdir]
    unfold Volume.content
    rw [Volume.block_direct _ _ ho]
    change _ = if (s.myInodes d).addrs (o / BSIZE) = 0 then 0
      else s.image.data (BSIZE * ((s.myInodes d).addrs (o / BSIZE)).toNat + o % BSIZE)
    by_cases hz : (s.myInodes d).addrs (o / BSIZE) = 0
    · rw [if_neg (fun hc => hc.2 hz), if_pos hz]
    · rw [if_pos ⟨ho, hz⟩, if_neg hz]
  have hhigh (o : Nat) (ho : ¬ o / BSIZE < NDIRECT) : r.1 o = 0 := by
    rw [hdir, if_neg fun hc => ho hc.1]
  by_cases hind : (s.myInodes d).addrs NDIRECT = 0
  · rw [if_neg (not_not.mpr hind)]
    funext o
    by_cases ho : o / BSIZE < NDIRECT
    · exact hlow o ho
    · rw [hhigh o ho, Volume.content, if_pos (Volume.block_none _ _ (Nat.not_lt.mp ho) (.inr hind))]
  · have hon := h _ (.of_indirect hind)
    have hentry (j : Nat) (hj : j < NINDIRECT) :
        (readIndirect ((s.myInodes d).addrs NDIRECT) r.2).1 j =
          s.volume.block d (NDIRECT + j) := by
      rw [readIndirect_fst (hlen ▸ hon) hj, Volume.block_indirect _ _ hj hind]
      unfold Volume.indirect Globals.volume
      rw [hdata]
    have hblocks := readBlocks (readIndirect ((s.myInodes d).addrs NDIRECT) r.2).1
      (fun j => (readIndirect ((s.myInodes d).addrs NDIRECT) r.2).1 j ≠ 0) NINDIRECT NDIRECT bytes
      (r.1, (readIndirect ((s.myInodes d).addrs NDIRECT) r.2).2) (fun j _ => Iff.rfl)
      fun j hj hne => by
        rw [hentry j hj] at hne ⊢
        have hl : (readIndirect ((s.myInodes d).addrs NDIRECT) r.2).2.image.length =
            s.image.length := by simp [readIndirect, hlen]
        exact hl ▸ h _ (.of_block hne)
    rw [if_pos hind]
    funext o
    rw [hblocks.2.2]
    have hd : (readIndirect ((s.myInodes d).addrs NDIRECT) r.2).2.image.data = s.image.data := by
      simp [readIndirect, hdata]
    by_cases ho : o / BSIZE < NDIRECT
    · rw [if_neg (by omega)]
      exact hlow o ho
    · by_cases hlt : o / BSIZE < NDIRECT + NINDIRECT
      · have hk : NDIRECT + (o / BSIZE - NDIRECT) = o / BSIZE := by omega
        have he := hentry (o / BSIZE - NDIRECT) (by omega)
        rw [hk] at he
        rw [he, hhigh o ho, hd]
        unfold Volume.content
        by_cases hz : s.volume.block d (o / BSIZE) = 0
        · rw [if_neg (fun hc => hc.2.2 hz), if_pos hz]
        · rw [if_pos ⟨by omega, hlt, hz⟩, if_neg hz]
          rfl
      · rw [if_neg (by omega), hhigh o ho, Volume.content,
          if_pos (Volume.block_none _ _ (Nat.not_lt.mp ho) (.inl (Nat.not_lt.mp hlt)))]

/-- The bytes of the image file. -/
def Globals.file (s : Globals) : Memory × Nat := (s.image.data, s.image.length)

theorem readDirectory_file (parent : Dinode) (bytes : Nat) (s : Globals) :
    (readDirectory parent bytes s).2.file = s.file := by
  have hblock (a : BitVec 32) (k : Nat) (r : Memory × Globals) :
      (readBlock a k bytes r).2.file = r.2.file := by
    simp [readBlock, Globals.file]
  have hind (a : BitVec 32) (t : Globals) : (readIndirect a t).2.file = t.file := by
    simp [readIndirect, Globals.file]
  have hloop (n : Nat) (addr : Nat → BitVec 32) (p : Nat → Prop) [DecidablePred p]
      (r : Memory × Globals) (k : Nat → Nat) :
      (loop n (fun j r => if p j then readBlock (addr j) (k j) bytes r else r) r).2.file =
        r.2.file := by
    refine loop_frame (fun r : Memory × Globals => r.2.file) fun j r => ?_
    split
    · exact hblock ..
    · rfl
  have hdirect := hloop NDIRECT parent.addrs (fun k => 0 < parent.addrs k) (fun _ => 0, s) fun k => k
  unfold readDirectory
  dsimp only
  split
  · rw [hloop _ _ (fun j => _ ≠ 0), hind]
    exact hdirect
  · exact hdirect

end Blocks

theorem clearInode_file (inum : Nat) (s : Globals) : (clearInode inum s).file = s.file :=
  freeBlocks_frame Globals.file (fun _ _ => rfl) (fun _ _ => by simp [readEntries, Globals.file]) ..

section Enter

variable {s : Globals} {p : Nat} (hp : p ≠ 34)
include hp

theorem enter_file (g : Nat) (s : Globals) : (enter p g s).2.file = s.file := by
  have hf (bytes : Nat) := readDirectory_file (s.myInodes p) bytes (s.touch (.inode p))
  unfold enter patch
  dsimp only
  rw [if_neg hp]
  exact hf _

/-- A call for a directory other than 34 changes neither the disk nor the
inodes. -/
theorem enter_volume (g : Nat) (s : Globals) : (enter p g s).2.volume = s.volume := by
  have hd := congrArg Prod.fst (enter_file hp g s)
  have hi := enter_myInodes p g s
  rw [if_neg hp] at hi
  exact congrArg₂ Volume.mk hd hi

theorem enter_parentDirectory (h : Reads s p) (g : Nat) :
    (enter p g s).1.parentDirectory = setDots p g (s.volume.content p) := by
  have hr (bytes : Nat) := readDirectory_fst (s := s.touch (.inode p)) h bytes
  unfold enter patch
  dsimp only
  rw [if_neg hp]
  exact congrArg (setDots p g) (hr _)

end Enter

-- ---------------------------------------------------------------------------
-- Writing
-- ---------------------------------------------------------------------------

/-- From `s` to `t` the blocks `lo` to `hi` of a buffer are written to the
blocks `blk` of the disk. -/
structure Written (blk : Nat → BitVec 32) (dir : Memory) (lo hi : Nat) (s t : Globals) : Prop where
  length : t.image.length = s.image.length
  inside : ∀ k, lo ≤ k → k < hi → blk k ≠ 0 → ∀ o < BSIZE,
    t.image.data (BSIZE * (blk k).toNat + o) = dir (BSIZE * k + o)
  outside : ∀ o < s.image.length, (∀ k, lo ≤ k → k < hi → blk k ≠ 0 → ¬ InBlock (blk k) o) →
    t.image.data o = s.image.data o

section Written

variable {blk : Nat → BitVec 32} {dir : Memory} {s t u : Globals}

theorem Written.refl (blk : Nat → BitVec 32) (dir : Memory) (k : Nat) (s : Globals) :
    Written blk dir k k s s := ⟨rfl, fun _ _ _ => by omega, fun _ _ _ => rfl⟩

theorem InBlock.eq (h : InBlock a o) (h' : InBlock b o) : a = b :=
  BitVec.eq_of_toNat_eq (h.symm.trans h')

theorem inBlock_add (b : BitVec 32) (ho : o < BSIZE) : InBlock b (BSIZE * b.toNat + o) := by
  unfold InBlock BSIZE at *
  omega

theorem Written.trans (h : Written blk dir lo mid s t) (h' : Written blk dir mid hi t u)
    (hl : lo ≤ mid) (hh : mid ≤ hi) (hd : ∀ k k', blk k ≠ 0 → blk k = blk k' → k = k')
    (hon : ∀ k, lo ≤ k → k < mid → blk k ≠ 0 → OnDisk s.image.length (blk k)) :
    Written blk dir lo hi s u := by
  refine ⟨h'.length.trans h.length, fun k h1 h2 hne o ho => ?_, fun o ho hout => ?_⟩
  · by_cases hk : k < mid
    · -- the later blocks are others
      have hlen := (hon k h1 hk hne).holds
      have hsize : BSIZE * (blk k).toNat + o < t.image.length := by
        rw [h.length, Nat.mul_succ] at *
        omega
      rw [h'.outside _ hsize, h.inside k h1 hk hne o ho]
      intro k' hm hk' _ hin
      have := hd k k' hne ((inBlock_add _ ho).eq hin)
      omega
    · exact h'.inside k (by omega) h2 hne o ho
  · rw [h'.outside o (h.length ▸ ho) fun k h1 h2 => hout k (by omega) h2,
      h.outside o ho fun k h1 h2 => hout k h1 (by omega)]

theorem written_writeBlock (h : OnDisk s.image.length (blk k)) (hne : blk k ≠ 0) (bytes : Nat)
    (dir : Memory) : Written blk dir k (k + 1) s (writeBlock (blk k) k bytes dir s) := by
  have hlen := h.holds
  have hpos := h.seek s.image
  rw [Nat.mul_succ] at hlen
  refine ⟨?_, fun k' h1 h2 _ o ho => ?_, fun o ho hout => ?_⟩
  · simp only [writeBlock, Image.write, hpos, Image.seekToBlock_length]
    exact Nat.max_eq_left hlen
  · obtain rfl : k' = k := by omega
    simp only [writeBlock, Image.write, hpos, Image.seekToBlock_length]
    rw [if_pos ⟨by omega, by omega⟩, Nat.add_sub_cancel_left]
  · have hnot := hout k (le_refl _) (Nat.lt_succ_self k) hne
    simp only [writeBlock, Image.write, hpos, Image.seekToBlock_length, Image.seekToBlock_data]
    rw [if_neg, if_pos ho]
    unfold InBlock BSIZE at *
    omega

/-- A loop that writes the blocks it has numbers of. -/
theorem written_loop (blk : Nat → BitVec 32) (p : Nat → Prop) [DecidablePred p]
    (addr : Nat → BitVec 32) (n k0 bytes : Nat) (dir : Memory) (s : Globals)
    (hp : ∀ j < n, p j ↔ blk (k0 + j) ≠ 0)
    (ha : ∀ j < n, addr j = blk (k0 + j))
    (hd : ∀ k k', blk k ≠ 0 → blk k = blk k' → k = k')
    (hon : ∀ k, blk k ≠ 0 → OnDisk s.image.length (blk k)) :
    Written blk dir k0 (k0 + n) s
      (loop n (fun j t => if p j then writeBlock (addr j) (k0 + j) bytes dir t else t) s) := by
  refine loop_invariant (P := fun m t => Written blk dir k0 (k0 + m) s t) (Written.refl ..) ?_
  intro j t hj ht
  by_cases hpj : p j
  · have hne := (hp j hj).mp hpj
    rw [if_pos hpj, ha j hj]
    exact ht.trans (written_writeBlock (ht.length ▸ hon _ hne) hne bytes dir) (by omega) (by omega)
      hd fun k _ _ hk => hon k hk
  · have hz : blk (k0 + j) = 0 := by
      by_contra hne
      exact hpj ((hp j hj).mpr hne)
    rw [if_neg hpj]
    refine ⟨ht.length, fun k h1 h2 hne => ?_, fun o ho hout => ?_⟩
    · refine ht.inside k h1 ?_ hne
      by_contra hge
      exact hne (by rwa [show k = k0 + j by omega])
    · exact ht.outside o ho fun k h1 h2 => hout k h1 (by omega)

variable {f : Frame}

/-- The end of a turn writes the buffer of a frame to all blocks of its
directory. -/
theorem written_writeDirectory (h : Reads s f.parentInum) (hd : s.volume.Distinct f.parentInum) :
    Written (s.volume.block f.parentInum) f.parentDirectory 0 (NDIRECT + NINDIRECT) s
      (writeDirectory f s) := by
  have hon (k : Nat) (hk : s.volume.block f.parentInum k ≠ 0) := h _ (.of_block hk)
  have hdirect := written_loop (s.volume.block f.parentInum)
    (fun k => 0 < (s.myInodes f.parentInum).addrs k) (s.myInodes f.parentInum).addrs NDIRECT 0
    f.bytes f.parentDirectory (s.touch (.inode f.parentInum))
    (fun j hj => by rw [Nat.zero_add, Volume.block_direct _ _ hj]; exact pos_iff_ne_zero _)
    (fun j hj => by rw [Nat.zero_add, Volume.block_direct _ _ hj]; rfl) hd.block hon
  simp only [Nat.zero_add] at hdirect
  unfold writeDirectory
  dsimp only
  have ht : (s.touch (.inode f.parentInum)).myInodes = s.myInodes := rfl
  rw [ht]
  generalize loop NDIRECT (fun k t => if 0 < (s.myInodes f.parentInum).addrs k then
    writeBlock ((s.myInodes f.parentInum).addrs k) k f.bytes f.parentDirectory t else t)
    (s.touch (.inode f.parentInum)) = t at *
  by_cases hind : (s.myInodes f.parentInum).addrs NDIRECT = 0
  · rw [if_neg (not_not.mpr hind)]
    refine ⟨hdirect.length, fun k h1 _ hne => ?_, fun o ho hout => ?_⟩
    · refine hdirect.inside k h1 ?_ hne
      by_contra hge
      exact hne (Volume.block_none _ _ (Nat.not_lt.mp hge) (.inr hind))
    · exact hdirect.outside o ho fun k h1 h2 => hout k h1 (by omega)
  · have hbind : OnDisk s.image.length ((s.myInodes f.parentInum).addrs NDIRECT) :=
      h _ (.of_indirect hind)
    have hlen : t.image.length = s.image.length := hdirect.length
    -- writing the direct blocks leaves the indirect block alone
    have hentry (j : Nat) (hj : j < NINDIRECT) :
        (readIndirect ((s.myInodes f.parentInum).addrs NDIRECT) t).1 j =
          s.volume.block f.parentInum (NDIRECT + j) := by
      have hholds := hbind.holds
      rw [readIndirect_fst (hlen ▸ hbind) hj, Volume.block_indirect _ _ hj hind]
      unfold Volume.indirect
      congr 1
      refine Memory.read_congr fun o hl hh => ?_
      have hj : j < 128 := hj
      have hin : InBlock ((s.myInodes f.parentInum).addrs NDIRECT) o := by
        unfold InBlock
        simp only [BSIZE] at hl hh ⊢
        omega
      refine hdirect.outside o ?_ fun k _ _ hne hk => hd.indirect k hne (hk.eq hin)
      unfold InBlock at hin
      simp only [BSIZE] at hin hholds
      change o < s.image.length
      omega
    rw [if_pos hind]
    have hrest := written_loop (s.volume.block f.parentInum)
      (fun j => (readIndirect ((s.myInodes f.parentInum).addrs NDIRECT) t).1 j ≠ 0)
      (readIndirect ((s.myInodes f.parentInum).addrs NDIRECT) t).1 NINDIRECT NDIRECT f.bytes
      f.parentDirectory (readIndirect ((s.myInodes f.parentInum).addrs NDIRECT) t).2
      (fun j hj => by rw [hentry j hj]) hentry hd.block fun k hk => by
        have hl : (readIndirect ((s.myInodes f.parentInum).addrs NDIRECT) t).2.image.length =
            s.image.length := by
          simpa [readIndirect] using hlen
        exact hl ▸ hon k hk
    have hread : Written (s.volume.block f.parentInum) f.parentDirectory NDIRECT NDIRECT t
        (readIndirect ((s.myInodes f.parentInum).addrs NDIRECT) t).2 :=
      ⟨by simp [readIndirect], fun _ _ _ => by omega, fun _ _ _ => by simp [readIndirect]⟩
    have hall := (hdirect.trans hread (Nat.zero_le _) (le_refl _) hd.block fun k _ _ => hon k).trans
      hrest (Nat.zero_le _) (Nat.le_add_right ..) hd.block fun k _ _ => hon k
    exact ⟨hall.length, hall.inside, hall.outside⟩

/-- What a directory shows on disk once `dir` is written to its blocks. -/
def Volume.shown (v : Volume) (d : Nat) (dir : Memory) : Memory := fun o =>
  if v.block d (o / BSIZE) = 0 then 0 else dir o

theorem OnDisk.lt_length (h : OnDisk length b) (ho : InBlock b o) : o < length := by
  have := h.holds
  unfold InBlock BSIZE at *
  omega

/-- Writing the blocks of `d` leaves its block numbers alone. -/
theorem Written.sameMap (h : Written (s.volume.block d) dir 0 (NDIRECT + NINDIRECT) s t)
    (hi : t.myInodes d = s.myInodes d) (hr : Reads s d) (hd : s.volume.Distinct d) :
    s.volume.SameMap t.volume d := by
  refine ⟨congrArg Dinode.size hi, fun j _ => congrArg (·.addrs j) hi, fun ha o ho => ?_⟩
  exact h.outside o ((hr _ (.of_indirect ha)).lt_length ho) fun k _ _ hk hin =>
    hd.indirect k hk (hin.eq ho)

theorem Written.content (h : Written (s.volume.block d) dir 0 (NDIRECT + NINDIRECT) s t)
    (hi : t.myInodes d = s.myInodes d) (hr : Reads s d) (hd : s.volume.Distinct d) :
    t.volume.content d = s.volume.shown d dir := by
  funext o
  unfold Volume.content Volume.shown
  rw [(h.sameMap hi hr hd).block]
  split
  · rfl
  · rename_i hne
    have ho : BSIZE * (o / BSIZE) + o % BSIZE = o := by
      unfold BSIZE
      omega
    have hin := h.inside (o / BSIZE) (Nat.zero_le _) (Volume.lt_of_block hne) hne (o % BSIZE)
      (Nat.mod_lt _ (by decide))
    rw [ho] at hin
    exact hin

/-- Writing the blocks of `d` leaves a directory alone that holds none of
them. -/
theorem Written.sameDir (h : Written (s.volume.block d) dir 0 (NDIRECT + NINDIRECT) s t)
    (hi : t.myInodes e = s.myInodes e) (hr : Reads s e)
    (hout : ∀ k, s.volume.block d k ≠ 0 → ¬ s.volume.Holds e (s.volume.block d k)) :
    s.volume.SameDir t.volume e := by
  have hkeep (b : BitVec 32) (hb : s.volume.Holds e b) (o : Nat) (ho : InBlock b o) :
      t.volume.data o = s.volume.data o :=
    h.outside o ((hr b hb).lt_length ho) fun k _ _ hk hin => hout k hk (hin.eq ho ▸ hb)
  exact ⟨⟨congrArg Dinode.size hi, fun j _ => congrArg (·.addrs j) hi, fun ha =>
    hkeep _ (.of_indirect ha)⟩, fun k hk => hkeep _ (.of_block hk)⟩

end Written

end PerrOS.Fsck
