import PerrOS.Lib.System
import PerrOS.Fsck.FreeMap

/-!
# The directory walk

`fixBadInodeTypes` with its call stack made explicit: one frame for each call
under way, and one step for each turn of the entry loop. `main` runs it from
the root on what `checkFreeMap` leaves.
-/

namespace PerrOS.Fsck

open Lib Function

def T_DIR : BitVec 16 := 1

-- ---------------------------------------------------------------------------
-- Directory buffers
-- ---------------------------------------------------------------------------

/-- A call of `fixBadInodeTypes` under way: its directory, the buffer with the
directory's entries and the size it was allocated with, the entry it is at
and whether the call for that entry has been made. -/
structure Frame where
  parentInum : Nat
  parentDirectory : Memory
  bytes : Nat
  i : Nat
  called : Bool

def inumAt (dir : Memory) (i : Nat) : Nat := dir.read (direntSize * i) 2

/-- The first character of an entry's name. -/
def nameAt (dir : Memory) (i : Nat) : Byte := dir (direntSize * i + 2)

/-- The character `.` -/
def dot : Byte := 46

/-- Sets the first characters of the name of entry `i`. -/
def setName (i : Nat) (name : List Byte) (dir : Memory) : Memory :=
  (name.zipIdx).foldl (fun dir c => update dir (direntSize * i + 2 + c.2) c.1) dir

def setInum (i inum : Nat) (dir : Memory) : Memory := dir.write (direntSize * i) 2 inum

/-- `memset` of one entry. -/
def clearEntry (i : Nat) (dir : Memory) : Memory := fun o =>
  if direntSize * i ≤ o ∧ o < direntSize * (i + 1) then 0 else dir o

/-- Reads a block of the disk into block `k` of a directory buffer. -/
def readBlock (addr : BitVec 32) (k bytes : Nat) (r : Memory × Globals) : Memory × Globals :=
  let (block, image) := (r.2.image.seekToBlock addr).read BSIZE fun o => r.1 (BSIZE * k + o)
  (fun o => if BSIZE * k ≤ o ∧ o < BSIZE * (k + 1) then block (o - BSIZE * k) else r.1 o,
    { r.2.touch (.block k bytes) with image })

/-- Writes block `k` of a directory buffer to a block of the disk. -/
def writeBlock (addr : BitVec 32) (k bytes : Nat) (dir : Memory) (s : Globals) : Globals :=
  { s.touch (.block k bytes) with
    image := (s.image.seekToBlock addr).write BSIZE fun o => dir (BSIZE * k + o) }

/-- Reads an indirect block into an array that `calloc` has zeroed. -/
def readIndirect (addr : BitVec 32) (s : Globals) : (Nat → BitVec 32) × Globals :=
  let (buf, image) := (s.image.seekToBlock addr).read BSIZE fun _ => 0
  (fun j => .ofNat 32 (buf.read (4 * j) 4), { s with image })

/-- Reads the blocks of a directory into a buffer of zeros. -/
def readDirectory (parent : Dinode) (bytes : Nat) (s : Globals) : Memory × Globals :=
  let r := loop NDIRECT
    (fun k r => if 0 < parent.addrs k then readBlock (parent.addrs k) k bytes r else r)
    ((fun _ => 0 : Memory), s)
  if parent.addrs NDIRECT ≠ 0 then
    let p := readIndirect (parent.addrs NDIRECT) r.2
    loop NINDIRECT
      (fun j r => if p.1 j ≠ 0 then readBlock (p.1 j) (NDIRECT + j) bytes r else r) (r.1, p.2)
  else r

/-- Writes the buffer of a frame back to the blocks of its directory. -/
def writeDirectory (f : Frame) (s : Globals) : Globals :=
  let s := s.touch (.inode f.parentInum)
  let parent := s.myInodes f.parentInum
  let s := loop NDIRECT (fun k s => if 0 < parent.addrs k then
    writeBlock (parent.addrs k) k f.bytes f.parentDirectory s else s) s
  if parent.addrs NDIRECT ≠ 0 then
    let p := readIndirect (parent.addrs NDIRECT) s
    loop NINDIRECT (fun j s => if p.1 j ≠ 0 then
      writeBlock (p.1 j) (NDIRECT + j) f.bytes f.parentDirectory s else s) p.2
  else s

-- ---------------------------------------------------------------------------
-- Calls
-- ---------------------------------------------------------------------------

/-- The entry put into directory 34 and the growth of its size. -/
def patch (parentInum : Nat) (r : Memory × Globals) : Memory × Globals :=
  if parentInum = 34 then
    let inode := r.2.myInodes 34
    (setInum 2 35 (setName 2 [49, 0] r.1),
      { r.2 with
        myInodes := update r.2.myInodes 34
          { inode with size := inode.size + BitVec.ofNat 32 direntSize } })
  else r

/-- The entries `.` and `..`. -/
def setDots (parentInum grandParentInum : Nat) (dir : Memory) : Memory :=
  let dir := setInum 0 parentInum (setName 0 [dot, 0] dir)
  setInum 1 grandParentInum (setName 1 [dot, dot, 0] dir)

/-- `fixBadInodeTypes` up to its entry loop. -/
def enter (parentInum grandParentInum : Nat) (s : Globals) : Frame × Globals :=
  let s := s.touch (.inode parentInum)
  let parent := s.myInodes parentInum
  let bytes := (parent.size * 2).toNat * direntSize
  let r := patch parentInum (readDirectory parent bytes s)
  ({  parentInum
      parentDirectory := setDots parentInum grandParentInum r.1
      bytes, i := 0, called := false }, r.2)

def isInvalidType (inode : Dinode) : Bool := inode.type.toInt < 0 ∨ inode.type.toInt > 3

def markAsFreeInBitMap (addr : BitVec 32) (s : Globals) : Globals :=
  let charInd := getCharIndexFromAddr addr
  let bit := ~~~ bitAt (getBitIndexFromAddr addr) &&& s.myFreeMap charInd
  { s.touch (.map charInd) with theirFreeMap := update s.theirFreeMap charInd bit }

/-- Frees the blocks that an inode names. -/
def freeBlocks (inode : Dinode) (s : Globals) : Globals :=
  let s := loop NDIRECT (fun j => markAsFreeInBitMap (inode.addrs j)) s
  if 0 < inode.addrs NDIRECT then
    let s := markAsFreeInBitMap (inode.addrs NDIRECT) s
    let r := readEntries (inode.addrs NDIRECT) s
    loop NINDIRECT
      (fun j s => if 0 < (r.1 j).toInt then markAsFreeInBitMap (r.1 j) s else s) r.2
  else s

/-- Frees the blocks of an inode of invalid type and zeroes the inode. -/
def clearInode (inum : Nat) (s : Globals) : Globals :=
  let s := freeBlocks (s.myInodes inum) s
  { s with myInodes := update s.myInodes inum Dinode.zero }

-- ---------------------------------------------------------------------------
-- Steps
-- ---------------------------------------------------------------------------

/-- What the entry loop does next. -/
inductive Action
  /-- The loop is over and the call returns. -/
  | leave
  /-- The entry is free or its name starts with a dot. -/
  | skip
  /-- The entry names an inode of invalid type. -/
  | clear (inum : Nat)
  /-- The entry names a directory. -/
  | descend (inum : Nat)
  /-- The entry names any other inode. -/
  | keep (inum : Nat)
  deriving DecidableEq

def Frame.action (f : Frame) (s : Globals) : Action :=
  if f.i < (s.myInodes f.parentInum).size.toNat / direntSize then
    let inum := inumAt f.parentDirectory f.i
    if nameAt f.parentDirectory f.i ≠ dot ∧ inum ≠ 0 then
      if isInvalidType (s.myInodes inum) then .clear inum
      else if (s.myInodes inum).type = T_DIR then .descend inum
      else .keep inum
    else .skip
  else .leave

/-- The entry loop is at an entry in use whose name does not start with a dot. -/
structure Picks (f : Frame) (s : Globals) : Prop where
  lt : f.i < (s.myInodes f.parentInum).size.toNat / direntSize
  name : nameAt f.parentDirectory f.i ≠ dot
  inum : inumAt f.parentDirectory f.i ≠ 0

/-- The actions of the entry loop with what each is taken for. -/
inductive Acts (f : Frame) (s : Globals) : Action → Prop
  | leave : (s.myInodes f.parentInum).size.toNat / direntSize ≤ f.i → Acts f s .leave
  | skip : f.i < (s.myInodes f.parentInum).size.toNat / direntSize →
    nameAt f.parentDirectory f.i = dot ∨ inumAt f.parentDirectory f.i = 0 → Acts f s .skip
  | clear : Picks f s → isInvalidType (s.myInodes (inumAt f.parentDirectory f.i)) = true →
    Acts f s (.clear (inumAt f.parentDirectory f.i))
  | descend : Picks f s → (s.myInodes (inumAt f.parentDirectory f.i)).type = T_DIR →
    Acts f s (.descend (inumAt f.parentDirectory f.i))
  | keep : Picks f s → isInvalidType (s.myInodes (inumAt f.parentDirectory f.i)) = false →
    (s.myInodes (inumAt f.parentDirectory f.i)).type ≠ T_DIR →
    Acts f s (.keep (inumAt f.parentDirectory f.i))

theorem acts (f : Frame) (s : Globals) : Acts f s (f.action s) := by
  unfold Frame.action
  dsimp only
  split
  · rename_i hlt
    split
    · rename_i hused
      have hp : Picks f s := ⟨hlt, hused.1, hused.2⟩
      split
      · rename_i hv
        exact .clear hp hv
      · rename_i hv
        split
        · rename_i ht
          exact .descend hp ht
        · rename_i ht
          exact .keep hp (eq_false_of_ne_true hv) ht
    · rename_i hfree
      exact .skip hlt (by rwa [not_and_or, not_not, not_not] at hfree)
  · rename_i hge
    exact .leave (Nat.not_lt.mp hge)

theorem Acts.of_eq (h : Frame.action f s = a) : Acts f s a := h ▸ acts f s

structure Walk where
  globals : Globals
  frames : List Frame

/-- The end of a turn of the loop: the buffer is written back. -/
def Frame.advance (f : Frame) (rest : List Frame) (s : Globals) : Walk :=
  ⟨writeDirectory f s, { f with i := f.i + 1, called := false } :: rest⟩

def Walk.next (w : Walk) : Option Walk :=
  match w.frames with
  | [] => none
  | f :: rest =>
    if f.called then some (f.advance rest w.globals)
    else
      let s := w.globals.touch (.inode f.parentInum)
      match f.action s with
      | .leave => some ⟨s, rest⟩
      | .skip => some (f.advance rest s)
      | .clear inum =>
        let f := { f with parentDirectory := clearEntry f.i f.parentDirectory }
        some (f.advance rest (clearInode inum (s.touch (.inode inum))))
      | .descend inum =>
        let r := enter inum f.parentInum (s.touch (.inode inum))
        some ⟨r.2, r.1 :: { f with called := true } :: rest⟩
      | .keep inum => some (f.advance rest (s.touch (.inode inum)))

/-- The call for the root. -/
def start (s : Globals) : Walk :=
  let r := enter ROOTINO ROOTINO s
  ⟨r.2, [r.1]⟩

/-- The walk that `main` starts on the globals `s`. -/
def walk (s : Globals) : System Walk Unit := .ofNext (· = start s) fun w _ => w.next

/-- The steps of the walk, one case for each turn of the entry loop. -/
inductive Step : Walk → Walk → Prop
  | returned (s : Globals) (f : Frame) (rest : List Frame) : f.called = true →
    Step ⟨s, f :: rest⟩ (f.advance rest s)
  | leave (s : Globals) (f : Frame) (rest : List Frame) : f.called = false →
    f.action s = .leave → Step ⟨s, f :: rest⟩ ⟨s.touch (.inode f.parentInum), rest⟩
  | skip (s : Globals) (f : Frame) (rest : List Frame) : f.called = false →
    f.action s = .skip →
    Step ⟨s, f :: rest⟩ (f.advance rest (s.touch (.inode f.parentInum)))
  | clear (s : Globals) (f : Frame) (rest : List Frame) (inum : Nat) : f.called = false →
    f.action s = .clear inum →
    Step ⟨s, f :: rest⟩
      (Frame.advance { f with parentDirectory := clearEntry f.i f.parentDirectory } rest
        (clearInode inum ((s.touch (.inode f.parentInum)).touch (.inode inum))))
  | descend (s : Globals) (f : Frame) (rest : List Frame) (inum : Nat) (r : Frame × Globals) :
    f.called = false → f.action s = .descend inum →
    r = enter inum f.parentInum ((s.touch (.inode f.parentInum)).touch (.inode inum)) →
    Step ⟨s, f :: rest⟩ ⟨r.2, r.1 :: { f with called := true } :: rest⟩
  | keep (s : Globals) (f : Frame) (rest : List Frame) (inum : Nat) : f.called = false →
    f.action s = .keep inum →
    Step ⟨s, f :: rest⟩
      (f.advance rest ((s.touch (.inode f.parentInum)).touch (.inode inum)))

theorem Step.of_next {w w' : Walk} (h : w.next = some w') : Step w w' := by
  obtain ⟨s, frames⟩ := w
  cases frames with
  | nil => simp [Walk.next] at h
  | cons f rest =>
    simp only [Walk.next] at h
    cases hc : f.called with
    | true =>
      rw [if_pos hc, Option.some.injEq] at h
      exact h ▸ .returned s f rest hc
    | false =>
      have ha : f.action (s.touch (.inode f.parentInum)) = f.action s := rfl
      rw [hc, if_neg Bool.false_ne_true, ha] at h
      cases hact : f.action s <;> rw [hact, Option.some.injEq] at h <;> subst h
      · exact .leave s f rest hc hact
      · exact .skip s f rest hc hact
      · exact .clear s f rest _ hc hact
      · exact .descend s f rest _ _ hc hact rfl
      · exact .keep s f rest _ hc hact

theorem Step.next {w w' : Walk} (h : Step w w') : w.next = some w' := by
  have ha (f : Frame) (s : Globals) (a : Access) : f.action (s.touch a) = f.action s := rfl
  cases h with
  | returned s f rest hc => simp [Walk.next, hc]
  | leave s f rest hc hact => simp [Walk.next, hc, ha, hact]
  | skip s f rest hc hact => simp [Walk.next, hc, ha, hact]
  | clear s f rest inum hc hact => simp [Walk.next, hc, ha, hact]
  | descend s f rest inum r hc hact hr => simp [Walk.next, hc, ha, hact, hr]
  | keep s f rest inum hc hact => simp [Walk.next, hc, ha, hact]

/-- A walk goes on as long as a call is under way. -/
theorem exists_next (s : Globals) (f : Frame) (rest : List Frame) :
    ∃ w', Walk.next ⟨s, f :: rest⟩ = some w' := by
  cases hc : f.called with
  | true => exact ⟨_, (Step.returned s f rest hc).next⟩
  | false =>
    cases ha : f.action s with
    | leave => exact ⟨_, (Step.leave s f rest hc ha).next⟩
    | skip => exact ⟨_, (Step.skip s f rest hc ha).next⟩
    | clear inum => exact ⟨_, (Step.clear s f rest inum hc ha).next⟩
    | descend inum => exact ⟨_, (Step.descend s f rest inum _ hc ha rfl).next⟩
    | keep inum => exact ⟨_, (Step.keep s f rest inum hc ha).next⟩

-- ---------------------------------------------------------------------------
-- main up to the walk
-- ---------------------------------------------------------------------------

/-- `1 + 1 + (mySuperblock.ninodes / IPB) + 1`. -/
def bitMapRegionStart (super : Superblock) : BitVec 32 := super.ninodes / BitVec.ofNat 32 IPB + 3

/-- The inode table and the map on disk. `heap` is what the memory from
`malloc` happens to hold. -/
def readTables (heap garbage : Memory) (super : Superblock) (image : Image) : Globals :=
  let (inodes, image) := (image.seekToBlock 2).read (super.ninodes.toNat * dinodeSize) heap
  let s : Globals :=
    { image, garbage
      mySuperblock := super
      myInodes i := .ofBytes inodes (dinodeSize * i)
      theirFreeMap := fun _ => 0
      myFreeMap := fun _ => 0
      touched := [] }
  let (map, image) := (image.seekToBlock (bitMapRegionStart super)).read s.numBlockChars fun _ => 0
  { s with image, theirFreeMap c := if 0 ≤ c then map c.toNat else 0 }

theorem readTables_myInodes (heap garbage : Memory) (super : Superblock) (image : Image) (i : Nat) :
    (readTables heap garbage super image).myInodes i = .ofBytes (fun k =>
      if k < super.ninodes.toNat * dinodeSize ∧ 1024 + k < image.length then image.data (1024 + k)
      else heap k) (dinodeSize * i) := by
  have hpos : (image.seekToBlock 2).pos = 1024 := image.seekToBlock_pos (by decide)
  simp only [readTables, Image.read, hpos, Image.seekToBlock_length, Image.seekToBlock_data]

theorem readTables_theirFreeMap (heap garbage : Memory) (image : Image)
    (h : 512 * (bitMapRegionStart super).toNat < 2 ^ 31) (c : Nat) :
    (readTables heap garbage super image).theirFreeMap c =
      if c < (readTables heap garbage super image).numBlockChars ∧
          512 * (bitMapRegionStart super).toNat + c < image.length then
        image.data (512 * (bitMapRegionStart super).toNat + c)
      else 0 := by
  simp only [readTables, Image.read, Image.seekToBlock_pos _ h, Image.seekToBlock_length,
    Image.seekToBlock_data, Int.natCast_nonneg, if_true, Int.toNat_natCast]
  rfl

/-- What `main` has read when it calls `checkFreeMap`, on an image whose
superblock `checkSuperblock` accepts. -/
def load (heap garbage : Memory) (img : Image) : Option Globals :=
  let c := checkSuperblock ⟨0, 0, 0⟩ img
  if c.valid then some (readTables heap garbage c.super c.image) else none

theorem load_eq (hl : 512 + superblockSize ≤ img.length)
    (hd : ∀ k < superblockSize, img.data (512 + k) = sb.toBytes k) (hz : sb.anyZero = false)
    (he : sb.size = sb.expectedSize) (hs : sb.sane = true) (heap garbage : Memory) :
    load heap garbage img =
      some (readTables heap garbage sb (readSuperblock ⟨0, 0, 0⟩ img).2) := by
  have hr : (readSuperblock ⟨0, 0, 0⟩ img).1 = sb := readSuperblock_eq hl hd
  unfold load
  rw [checkSuperblock_of_agrees (by rw [hr, hz]) (by rw [hr, he]), hr, hs]
  rfl

-- ---------------------------------------------------------------------------
-- What the pieces leave alone
-- ---------------------------------------------------------------------------

/-- Everything but the image and the log. -/
def Globals.memory (s : Globals) : Globals := { s with image := emptyFile, touched := [] }

theorem readBlock_myInodes (addr : BitVec 32) (k bytes : Nat) (r : Memory × Globals) :
    (readBlock addr k bytes r).2.myInodes = r.2.myInodes := rfl

theorem readDirectory_memory (parent : Dinode) (bytes : Nat) (s : Globals) :
    (readDirectory parent bytes s).2.memory = s.memory := by
  have hloop (n : Nat) (addr : Nat → BitVec 32) (p : Nat → Prop) [DecidablePred p]
      (r : Memory × Globals) (k0 : Nat) :
      (loop n (fun k r => if p k then readBlock (addr k) (k0 + k) bytes r else r) r).2.memory =
        r.2.memory := by
    refine loop_frame (fun r : Memory × Globals => r.2.memory) fun k t => ?_
    split <;> rfl
  have h0 (r : Memory × Globals) := hloop NDIRECT parent.addrs (fun k => 0 < parent.addrs k) r 0
  simp only [Nat.zero_add] at h0
  unfold readDirectory
  dsimp only
  split
  · rw [hloop _ _ (fun j => _ ≠ 0)]
    exact h0 _
  · exact h0 _

theorem writeDirectory_memory (f : Frame) (s : Globals) :
    (writeDirectory f s).memory = s.memory := by
  have hloop (n : Nat) (addr : Nat → BitVec 32) (p : Nat → Prop) [DecidablePred p] (t : Globals)
      (k0 : Nat) :
      (loop n (fun k t => if p k then
        writeBlock (addr k) (k0 + k) f.bytes f.parentDirectory t else t) t).memory = t.memory := by
    refine loop_frame Globals.memory fun k t => ?_
    split <;> rfl
  have h0 (parent : Dinode) (t : Globals) :=
    hloop NDIRECT parent.addrs (fun k => 0 < parent.addrs k) t 0
  simp only [Nat.zero_add] at h0
  unfold writeDirectory
  dsimp only
  split
  · rw [hloop _ _ (fun j => _ ≠ 0)]
    exact h0 ..
  · exact h0 ..

theorem writeDirectory_myInodes (f : Frame) (s : Globals) :
    (writeDirectory f s).myInodes = s.myInodes :=
  (congrArg Globals.myInodes (writeDirectory_memory f s) :)

theorem writeDirectory_maps (f : Frame) (s : Globals) : (writeDirectory f s).maps = s.maps :=
  (congrArg Globals.maps (writeDirectory_memory f s) :)

theorem setDots_outside (h : 2 * direntSize ≤ o) (p g : Nat) (dir : Memory) :
    setDots p g dir o = dir o := by
  have h : 32 ≤ o := h
  simp only [setDots, setInum, setName, List.zipIdx, List.foldl, direntSize]
  rw [Memory.write_outside (by omega), update_of_ne (by omega), update_of_ne (by omega),
    update_of_ne (by omega), Memory.write_outside (by omega), update_of_ne (by omega),
    update_of_ne (by omega)]

/-- The names of the first two entries start with a dot. -/
theorem nameAt_setDots (h : i < 2) (p g : Nat) (dir : Memory) : nameAt (setDots p g dir) i = dot := by
  simp only [nameAt, setDots, setInum, setName, List.zipIdx, List.foldl, direntSize]
  obtain rfl | rfl : i = 0 ∨ i = 1 := by omega
  · rw [Memory.write_outside (by omega), update_of_ne (by omega), update_of_ne (by omega),
      update_of_ne (by omega), Memory.write_outside (by omega), update_of_ne (by omega)]
    exact update_self ..
  · rw [Memory.write_outside (by omega), update_of_ne (by omega), update_of_ne (by omega)]
    exact update_self ..

/-- A call changes inode 34 alone, which grows by an entry. -/
theorem enter_myInodes (p g : Nat) (s : Globals) :
    (enter p g s).2.myInodes = if p = 34 then update s.myInodes 34
      { s.myInodes 34 with size := (s.myInodes 34).size + BitVec.ofNat 32 direntSize }
      else s.myInodes := by
  have hr (parent : Dinode) (bytes : Nat) : (readDirectory parent bytes (s.touch (.inode p))).2.myInodes =
      s.myInodes := (congrArg Globals.myInodes (readDirectory_memory parent bytes _) :)
  unfold enter patch
  dsimp only
  split
  · dsimp only
    rw [hr]
  · exact hr ..

theorem enter_maps (p g : Nat) (s : Globals) : (enter p g s).2.maps = s.maps := by
  have hr (parent : Dinode) (bytes : Nat) : (readDirectory parent bytes (s.touch (.inode p))).2.maps =
      s.maps := (congrArg Globals.maps (readDirectory_memory parent bytes _) :)
  unfold enter patch
  dsimp only
  split <;> exact hr ..

-- ---------------------------------------------------------------------------
-- Clearing an inode
-- ---------------------------------------------------------------------------

/-- The block numbers that clearing an inode frees. Unused direct numbers
are freed with the rest, as block 0. -/
def Frees (s : Globals) (inode : Dinode) (addr : BitVec 32) : Prop :=
  (∃ j < NDIRECT, inode.addrs j = addr) ∨
    (0 < inode.addrs NDIRECT ∧ (inode.addrs NDIRECT = addr ∨
      ∃ j < NINDIRECT, 0 < ((readEntries (inode.addrs NDIRECT) s).1 j).toInt ∧
        (readEntries (inode.addrs NDIRECT) s).1 j = addr))

/-- From `s` to `t`, the bytes of `theirFreeMap` at `hit` are replaced by
parts of the same bytes of `myFreeMap` and no other byte changes. -/
structure Freed (s t : Globals) (hit : Int → Prop) : Prop where
  myFreeMap : t.myFreeMap = s.myFreeMap
  kept : ∀ c, ¬ hit c → t.theirFreeMap c = s.theirFreeMap c
  wiped : ∀ c, hit c → ∃ x, t.theirFreeMap c = x &&& s.myFreeMap c

theorem Freed.refl (s : Globals) : Freed s s fun _ => False :=
  ⟨rfl, fun _ _ => rfl, fun _ h => h.elim⟩

section Freed

variable {s t u : Globals} {hit hit' : Int → Prop}

theorem Freed.congr (h : Freed s t hit) (hh : ∀ c, hit c ↔ hit' c) : Freed s t hit' :=
  ⟨h.myFreeMap, fun c hc => h.kept c (mt (hh c).mp hc), fun c hc => h.wiped c ((hh c).mpr hc)⟩

theorem Freed.trans (h : Freed s t hit) (h' : Freed t u hit') :
    Freed s u fun c => hit c ∨ hit' c := by
  refine ⟨h'.myFreeMap.trans h.myFreeMap, fun c hc => ?_, fun c hc => ?_⟩
  · obtain ⟨h1, h2⟩ := not_or.mp hc
    rw [h'.kept c h2, h.kept c h1]
  · by_cases h2 : hit' c
    · obtain ⟨x, hx⟩ := h'.wiped c h2
      exact ⟨x, by rw [hx, h.myFreeMap]⟩
    · rw [h'.kept c h2]
      exact h.wiped c (hc.resolve_right h2)

/-- What touches neither map frees nothing. -/
theorem Freed.of_maps (h : t.maps = s.maps) : Freed s t fun _ => False := by
  simp only [Globals.maps, Prod.mk.injEq] at h
  exact ⟨h.2, fun c _ => by rw [h.1], fun _ h => h.elim⟩

theorem markAsFree_image (addr : BitVec 32) (s : Globals) :
    (markAsFreeInBitMap addr s).image = s.image := rfl

theorem markAsFree_garbage (addr : BitVec 32) (s : Globals) :
    (markAsFreeInBitMap addr s).garbage = s.garbage := rfl

theorem readEntries_maps (addr : BitVec 32) (s : Globals) :
    (readEntries addr s).2.maps = s.maps := rfl

theorem freed_markAsFree (addr : BitVec 32) (s : Globals) :
    Freed s (markAsFreeInBitMap addr s) fun c => getCharIndexFromAddr addr = c := by
  refine ⟨rfl, fun c hc => update_of_ne (Ne.symm hc) .., fun c hc => ?_⟩
  subst hc
  exact ⟨_, update_self ..⟩

theorem freed_loop (addr : Nat → BitVec 32) (p : Nat → Prop) [DecidablePred p] (n : Nat)
    (s : Globals) :
    Freed s (loop n (fun j s => if p j then markAsFreeInBitMap (addr j) s else s) s)
      fun c => ∃ j < n, p j ∧ getCharIndexFromAddr (addr j) = c := by
  induction n with
  | zero =>
    rw [loop_zero]
    exact (Freed.refl s).congr fun c => by simp
  | succ n ih =>
    rw [loop_succ]
    have hsucc (c : Int) : (∃ j < n + 1, p j ∧ getCharIndexFromAddr (addr j) = c) ↔
        (∃ j < n, p j ∧ getCharIndexFromAddr (addr j) = c) ∨
          (p n ∧ getCharIndexFromAddr (addr n) = c) := by
      simp only [Nat.lt_succ_iff_lt_or_eq, or_and_right, exists_or, exists_eq_left]
    by_cases hp : p n
    · rw [if_pos hp]
      refine (ih.trans (freed_markAsFree ..)).congr fun c => ?_
      rw [hsucc, and_iff_right hp]
    · rw [if_neg hp]
      refine ih.congr fun c => ?_
      rw [hsucc]
      simp only [hp, false_and, or_false]

theorem freed_loop_direct (addr : Nat → BitVec 32) (n : Nat) (s : Globals) :
    Freed s (loop n (fun j => markAsFreeInBitMap (addr j)) s)
      fun c => ∃ j < n, getCharIndexFromAddr (addr j) = c := by
  simpa using freed_loop addr (fun _ => True) n s

/-- What freeing one block leaves alone, freeing the blocks of an inode leaves
alone, if reading an indirect block does too. -/
theorem freeBlocks_frame {τ : Type} (g : Globals → τ)
    (hg : ∀ a t, g (markAsFreeInBitMap a t) = g t) (hr : ∀ a t, g (readEntries a t).2 = g t)
    (inode : Dinode) (s : Globals) : g (freeBlocks inode s) = g s := by
  have hd : g (loop NDIRECT (fun j => markAsFreeInBitMap (inode.addrs j)) s) = g s :=
    loop_frame g fun _ _ => hg ..
  unfold freeBlocks
  dsimp only
  split
  · rw [loop_frame g fun j t => ?_]
    · rw [hr, hg, hd]
    · split
      · exact hg ..
      · rfl
  · exact hd

theorem freed_freeBlocks (inode : Dinode) (s : Globals) :
    Freed s (freeBlocks inode s) fun c => ∃ addr, Frees s inode addr ∧
      getCharIndexFromAddr addr = c := by
  have hd := freed_loop_direct inode.addrs NDIRECT s
  unfold freeBlocks Frees
  dsimp only
  by_cases hind : 0 < inode.addrs NDIRECT
  · have hi (a : BitVec 32) : (readEntries a (markAsFreeInBitMap (inode.addrs NDIRECT)
        (loop NDIRECT (fun j => markAsFreeInBitMap (inode.addrs j)) s))).1 =
        (readEntries a s).1 := by
      apply readEntries_congr
      · rw [markAsFree_image, loop_frame Globals.image fun _ _ => markAsFree_image ..]
      · rw [markAsFree_garbage, loop_frame Globals.garbage fun _ _ => markAsFree_garbage ..]
    rw [if_pos hind, hi]
    have hread := (hd.trans (freed_markAsFree (inode.addrs NDIRECT) _)).trans
      (.of_maps (readEntries_maps (inode.addrs NDIRECT) _))
    have hall := hread.trans (freed_loop (readEntries (inode.addrs NDIRECT) s).1
      (fun j => 0 < ((readEntries (inode.addrs NDIRECT) s).1 j).toInt) NINDIRECT _)
    refine hall.congr fun c => ?_
    constructor
    · rintro (((⟨j, hj, hc⟩ | hc) | hf) | ⟨j, hj, hp, hc⟩)
      · exact ⟨_, .inl ⟨j, hj, rfl⟩, hc⟩
      · exact ⟨_, .inr ⟨hind, .inl rfl⟩, hc⟩
      · exact hf.elim
      · exact ⟨_, .inr ⟨hind, .inr ⟨j, hj, hp, rfl⟩⟩, hc⟩
    · rintro ⟨addr, ⟨j, hj, rfl⟩ | ⟨-, rfl | ⟨j, hj, hp, rfl⟩⟩, hc⟩
      · exact .inl (.inl (.inl ⟨j, hj, hc⟩))
      · exact .inl (.inl (.inr hc))
      · exact .inr ⟨j, hj, hp, hc⟩
  · rw [if_neg hind]
    refine hd.congr fun c => ?_
    simp only [hind, false_and, or_false]
    constructor
    · rintro ⟨j, hj, hc⟩
      exact ⟨_, ⟨j, hj, rfl⟩, hc⟩
    · rintro ⟨addr, ⟨j, hj, rfl⟩, hc⟩
      exact ⟨j, hj, hc⟩

theorem freed_clearInode (inum : Nat) (s : Globals) :
    Freed s (clearInode inum s) fun c => ∃ addr, Frees s (s.myInodes inum) addr ∧
      getCharIndexFromAddr addr = c := by
  have h := freed_freeBlocks (s.myInodes inum) s
  exact ⟨h.myFreeMap, h.kept, h.wiped⟩

theorem clearInode_myInodes (inum : Nat) (s : Globals) :
    (clearInode inum s).myInodes = update s.myInodes inum Dinode.zero := by
  unfold clearInode
  dsimp only
  rw [freeBlocks_frame Globals.myInodes (fun _ _ => rfl) fun _ _ => rfl]

end Freed

end PerrOS.Fsck
