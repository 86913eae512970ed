import PerrOS.Lib.Bitmap
import PerrOS.Fsck.Superblock

/-!
# The free map

`checkFreeMap` marks the blocks that inodes name in a map of its own, ands it
over the map on disk and invalidates an inode for every block that was marked
but free on disk.
-/

namespace PerrOS.Fsck

open Lib Function

/-- An access to one of the arrays that fsck allocates. -/
inductive Access
  | inode (i : Nat)
  | map (i : Int)
  /-- Block `k` of a directory buffer of `bytes` bytes. -/
  | block (k bytes : Nat)

/-- The globals of fsck. `garbage` is what an uninitialised local array
happens to hold; slots of `myInodes` past the table hold whatever lies behind
it in memory. `touched` lists the accesses made so far. -/
structure Globals where
  image : Image
  garbage : Memory
  mySuperblock : Superblock
  myInodes : Nat → Dinode
  theirFreeMap : Bitmap
  myFreeMap : Bitmap
  touched : List Access

namespace Globals

def touch (a : Access) (s : Globals) : Globals := { s with touched := a :: s.touched }

def ninodes (s : Globals) : Nat := s.mySuperblock.ninodes.toNat

/-- The size of both maps in bytes. -/
def numBlockChars (s : Globals) : Nat :=
  let n := s.mySuperblock.nblocks + 29
  (n / 8).toNat + if n % 8 ≠ 0 then 1 else 0

end Globals

def Dinode.typed (inode : Dinode) : Bool := inode.type = 1 ∨ inode.type = 2 ∨ inode.type = 3

def getCharIndexFromAddr (addr : BitVec 32) : Int := addr.toInt.tdiv 8

def getBitIndexFromAddr (addr : BitVec 32) : Int := addr.toInt.tmod 8

/-- `0x01 << bitInd` as a `char`: a negative count shifts the bit out. -/
def bitAt (bitInd : Int) : Byte := if bitInd < 0 then 0 else 1 <<< bitInd.toNat

def markAsBusyInMyFreeMap (addr : BitVec 32) (s : Globals) : Globals :=
  let charInd := getCharIndexFromAddr addr
  let bit := bitAt (getBitIndexFromAddr addr) ||| s.myFreeMap charInd
  { s.touch (.map charInd) with myFreeMap := update s.myFreeMap charInd bit }

/-- Reads the entries of an indirect block into an uninitialised array. -/
def readEntries (addr : BitVec 32) (s : Globals) : (Nat → BitVec 32) × Globals :=
  let (buf, image) := (s.image.seekToBlock addr).read BSIZE s.garbage
  (fun j => .ofNat 32 (buf.read (4 * j) 4), { s with image })

/-- The body of the first loop of `checkFreeMap`. -/
def markInode (i : Nat) (s : Globals) : Globals :=
  let s := s.touch (.inode i)
  let inode := s.myInodes i
  if inode.typed then
    let s := loop NDIRECT (fun j => markAsBusyInMyFreeMap (inode.addrs j)) s
    if 0 < inode.addrs NDIRECT then
      let s := markAsBusyInMyFreeMap (inode.addrs NDIRECT) s
      let r := readEntries (inode.addrs NDIRECT) s
      loop NINDIRECT
        (fun j s => if 0 < (r.1 j).toInt then markAsBusyInMyFreeMap (r.1 j) s else s) r.2
    else s
  else s

/-- `myInodes[i].type = 0`. -/
def Globals.destroy (i : Nat) (s : Globals) : Globals :=
  { s with myInodes := update s.myInodes i { s.myInodes i with type := 0 } }

/-- The search of `destroyInodeFromBlockAddr` over `n` inodes from `i` on. -/
def destroyFrom (addr : BitVec 32) : Nat → Nat → Globals → Globals
  | 0, _, s => s
  | n + 1, i, s =>
    let s := s.touch (.inode i)
    let inode := s.myInodes i
    if (List.range NDIRECT).any fun j => inode.addrs j = addr then s.destroy i
    else if inode.addrs NDIRECT = addr then s.destroy i
    else if 0 < inode.addrs NDIRECT then
      let r := readEntries (inode.addrs NDIRECT) s
      if (List.range NINDIRECT).any fun j => r.1 j = addr then r.2.destroy i
      else destroyFrom addr n (i + 1) r.2
    else destroyFrom addr n (i + 1) s

def destroyInodeFromBlockAddr (addr : BitVec 32) (s : Globals) : Globals :=
  destroyFrom addr s.ninodes 0 s

/-- The body of the second loop of `checkFreeMap`. -/
def compareByte (i : Nat) (s : Globals) : Globals :=
  let s := s.touch (.map i)
  let s := { s with theirFreeMap := update s.theirFreeMap i (s.theirFreeMap i &&& s.myFreeMap i) }
  let s := { s with myFreeMap := update s.myFreeMap i (s.myFreeMap i ^^^ s.theirFreeMap i) }
  if s.myFreeMap i ≠ 0 then
    let byte := s.myFreeMap i
    loop 8 (fun n s =>
      if byte &&& (0x80#8 >>> n) ≠ 0 then destroyInodeFromBlockAddr (.ofNat 32 (i * 8 + n)) s
      else s) s
  else s

/-- The blocks `checkFreeMap` takes to be busy whatever the layout: 0 to 28. -/
def seedMap (s : Globals) : Globals :=
  { s with
    myFreeMap := update (update (update (update s.myFreeMap 0 0xff) 1 0xff) 2 0xff) 3 0x1f
    touched := .map 3 :: .map 2 :: .map 1 :: .map 0 :: s.touched }

/-- The first loop, over slots 1 to `n`. -/
def markInodes (n : Nat) (s : Globals) : Globals := loop n (fun i => markInode (i + 1)) s

def checkFreeMap (s : Globals) : Globals :=
  let s := seedMap s
  let s := markInodes s.ninodes s
  loop s.numBlockChars compareByte s

-- ---------------------------------------------------------------------------
-- Marking
-- ---------------------------------------------------------------------------

/-- Everything but the descriptor's offset, `myFreeMap` and the log: what the
first loop leaves alone. -/
def Globals.inputs (s : Globals) : Globals :=
  { s with image := { s.image with pos := 0 }, myFreeMap := fun _ => 0, touched := [] }

@[simp] theorem readEntries_inputs (addr : BitVec 32) (s : Globals) :
    (readEntries addr s).2.inputs = s.inputs := by
  simp [readEntries, Globals.inputs]

@[simp] theorem readEntries_myFreeMap (addr : BitVec 32) (s : Globals) :
    (readEntries addr s).2.myFreeMap = s.myFreeMap := rfl

@[simp] theorem markAsBusy_inputs (addr : BitVec 32) (s : Globals) :
    (markAsBusyInMyFreeMap addr s).inputs = s.inputs := rfl

@[simp] theorem markAsBusy_image (addr : BitVec 32) (s : Globals) :
    (markAsBusyInMyFreeMap addr s).image = s.image := rfl

@[simp] theorem markAsBusy_garbage (addr : BitVec 32) (s : Globals) :
    (markAsBusyInMyFreeMap addr s).garbage = s.garbage := rfl

theorem busy_markAsBusy (addr : BitVec 32) (s : Globals) (b : Nat) :
    (markAsBusyInMyFreeMap addr s).myFreeMap.busy b =
      (s.myFreeMap.busy b || decide (addr.toInt = b)) := by
  change Bitmap.busy (update s.myFreeMap (getCharIndexFromAddr addr)
    (bitAt (getBitIndexFromAddr addr) ||| s.myFreeMap (getCharIndexFromAddr addr))) b = _
  by_cases h : 0 ≤ addr.toInt
  · obtain ⟨a, ha⟩ := Int.eq_ofNat_of_zero_le h
    have hc : getCharIndexFromAddr addr = ((a / 8 : Nat) : Int) := by
      rw [getCharIndexFromAddr, ha, Int.tdiv_eq_ediv_of_nonneg (by omega)]
      omega
    have hb : bitAt (getBitIndexFromAddr addr) = (1#8) <<< (a % 8) := by
      rw [getBitIndexFromAddr, ha, Int.tmod_eq_emod_of_nonneg (by omega), bitAt, if_neg (by omega)]
      congr 1
    rw [hc, hb, Bitmap.busy_update_or, ha]
    congr 1
    exact decide_eq_decide.mpr (by omega)
  · -- a negative block number marks nothing that the map counts
    have hf : decide (addr.toInt = b) = false := decide_eq_false (by omega)
    rw [hf, Bool.or_false]
    by_cases hz : getBitIndexFromAddr addr < 0
    · rw [bitAt, if_pos hz, show (0 : Byte) = 0#8 from rfl, BitVec.zero_or, update_eq_self]
    · have hneg : getCharIndexFromAddr addr < 0 := by
        unfold getCharIndexFromAddr getBitIndexFromAddr at *
        have := Int.mul_tdiv_add_tmod addr.toInt 8
        omega
      exact Bitmap.busy_congr (update_of_ne (by omega) ..)

theorem readEntries_congr (hi : s.image = t.image) (hg : s.garbage = t.garbage)
    (addr : BitVec 32) : (readEntries addr s).1 = (readEntries addr t).1 := by
  unfold readEntries
  rw [hi, hg]

/-- The blocks that the first loop marks for slot `i`. -/
def Names (s : Globals) (i : Nat) (b : Nat) : Prop :=
  (s.myInodes i).typed = true ∧
    ((∃ j < NDIRECT, ((s.myInodes i).addrs j).toInt = b) ∨
      (0 < (s.myInodes i).addrs NDIRECT ∧ (((s.myInodes i).addrs NDIRECT).toInt = b ∨
        ∃ j < NINDIRECT, 0 < ((readEntries ((s.myInodes i).addrs NDIRECT) s).1 j).toInt ∧
          ((readEntries ((s.myInodes i).addrs NDIRECT) s).1 j).toInt = b)))

theorem busy_loop_mark (addr : Nat → BitVec 32) (p : Nat → Prop) [DecidablePred p] (n : Nat)
    (s : Globals) (b : Nat) :
    (loop n (fun j s => if p j then markAsBusyInMyFreeMap (addr j) s else s) s).myFreeMap.busy b =
      true ↔ s.myFreeMap.busy b = true ∨ ∃ j < n, p j ∧ (addr j).toInt = b := by
  induction n with
  | zero => simp
  | succ n ih =>
    rw [loop_succ]
    by_cases hp : p n
    · rw [if_pos hp, busy_markAsBusy, Bool.or_eq_true, ih, decide_eq_true_eq, or_assoc]
      simp only [Nat.lt_succ_iff_lt_or_eq, or_and_right, exists_or, exists_eq_left, hp, true_and]
    · rw [if_neg hp, ih]
      simp only [Nat.lt_succ_iff_lt_or_eq, or_and_right, exists_or, exists_eq_left, hp, false_and,
        or_false]

theorem busy_loop_direct (addr : Nat → BitVec 32) (n : Nat) (s : Globals) (b : Nat) :
    (loop n (fun j => markAsBusyInMyFreeMap (addr j)) s).myFreeMap.busy b = true ↔
      s.myFreeMap.busy b = true ∨ ∃ j < n, (addr j).toInt = b := by
  simpa using busy_loop_mark addr (fun _ => True) n s b

/-- What marking one block leaves alone, marking the entries leaves alone. -/
theorem loop_mark_frame {τ : Type} (g : Globals → τ)
    (hg : ∀ a t, g (markAsBusyInMyFreeMap a t) = g t) (addr : Nat → BitVec 32) (p : Nat → Prop)
    [DecidablePred p] (n : Nat) (s : Globals) :
    g (loop n (fun j s => if p j then markAsBusyInMyFreeMap (addr j) s else s) s) = g s := by
  refine loop_frame g fun j t => ?_
  split
  · exact hg ..
  · rfl

theorem markInode_inputs (i : Nat) (s : Globals) : (markInode i s).inputs = s.inputs := by
  have hd (t : Globals) (addr : Nat → BitVec 32) :
      (loop NDIRECT (fun j => markAsBusyInMyFreeMap (addr j)) t).inputs = t.inputs :=
    loop_frame Globals.inputs fun _ _ => rfl
  unfold markInode
  dsimp only
  split
  · split
    · rw [loop_mark_frame Globals.inputs fun _ _ => rfl, readEntries_inputs, markAsBusy_inputs, hd]
      rfl
    · exact hd ..
  · rfl

theorem busy_markInode (i : Nat) (s : Globals) (b : Nat) :
    (markInode i s).myFreeMap.busy b = true ↔ s.myFreeMap.busy b = true ∨ Names s i b := by
  unfold markInode Names
  dsimp only
  have ht : (s.touch (.inode i)).myInodes = s.myInodes := rfl
  have hm : (s.touch (.inode i)).myFreeMap = s.myFreeMap := rfl
  rw [ht]
  generalize hinode : s.myInodes i = inode
  by_cases htyped : inode.typed = true
  · rw [if_pos htyped]
    by_cases hind : 0 < inode.addrs NDIRECT
    · have hi (a : BitVec 32) : (readEntries a (markAsBusyInMyFreeMap (inode.addrs NDIRECT)
          (loop NDIRECT (fun j => markAsBusyInMyFreeMap (inode.addrs j))
            (s.touch (.inode i))))).1 = (readEntries a s).1 := by
        apply readEntries_congr
        · rw [markAsBusy_image, loop_frame Globals.image fun _ _ => markAsBusy_image ..]
          rfl
        · rw [markAsBusy_garbage, loop_frame Globals.garbage fun _ _ => markAsBusy_garbage ..]
          rfl
      rw [if_pos hind, hi, busy_loop_mark, readEntries_myFreeMap, busy_markAsBusy, Bool.or_eq_true,
        busy_loop_direct, hm, decide_eq_true_eq]
      simp only [htyped, hind, true_and, or_assoc]
    · rw [if_neg hind, busy_loop_direct, hm]
      simp only [htyped, hind, true_and, false_and, or_false]
  · rw [if_neg htyped, hm]
    simp only [htyped, false_and, or_false, Bool.false_eq_true]

theorem markInodes_inputs (n : Nat) (s : Globals) : (markInodes n s).inputs = s.inputs :=
  loop_frame Globals.inputs fun _ _ => markInode_inputs ..

theorem markInodes_numBlockChars (n : Nat) (s : Globals) :
    (markInodes n s).numBlockChars = s.numBlockChars :=
  (congrArg Globals.numBlockChars (markInodes_inputs n s) :)

theorem markInodes_theirFreeMap (n : Nat) (s : Globals) :
    (markInodes n s).theirFreeMap = s.theirFreeMap :=
  (congrArg Globals.theirFreeMap (markInodes_inputs n s) :)

theorem markInodes_succ (n : Nat) (s : Globals) :
    markInodes (n + 1) s = markInode (n + 1) (markInodes n s) := loop_succ ..

theorem busy_markInodes (n : Nat) (s : Globals) (b : Nat) :
    (markInodes n s).myFreeMap.busy b = true ↔
      s.myFreeMap.busy b = true ∨ ∃ i < n, Names (markInodes i s) (i + 1) b := by
  induction n with
  | zero => simp [markInodes]
  | succ n ih =>
    rw [markInodes_succ, busy_markInode, ih, or_assoc]
    simp only [Nat.lt_succ_iff_lt_or_eq, or_and_right, exists_or, exists_eq_left]

/-- `myFreeMap` is as `calloc` leaves it. -/
def Fresh (s : Globals) : Prop := s.myFreeMap = fun _ => 0

theorem busy_seedMap (h : Fresh s) (b : Nat) :
    (seedMap s).myFreeMap.busy b = true ↔ b ≤ 28 := by
  have hff : ∀ k < 8, (0xff#8).getLsbD k = true := by decide
  have h1f : ∀ k < 8, (0x1f#8).getLsbD k = true ↔ k ≤ 4 := by decide
  have hb : b % 8 < 8 := Nat.mod_lt b (by decide)
  change ((update (update (update (update s.myFreeMap 0 0xff) 1 0xff) 2 0xff) 3 0x1f)
    ((b / 8 : Nat) : Int)).getLsbD (b % 8) = true ↔ _
  rw [show s.myFreeMap = fun _ => 0 from h]
  by_cases h3 : b / 8 = 3
  · rw [h3]
    change (0x1f#8).getLsbD (b % 8) = true ↔ _
    rw [h1f _ hb]
    omega
  · rw [update_of_ne (by omega)]
    by_cases hlt : b / 8 < 3
    · have : b / 8 = 0 ∨ b / 8 = 1 ∨ b / 8 = 2 := by omega
      rcases this with h' | h' | h' <;> rw [h'] <;> change (0xff#8).getLsbD (b % 8) = true ↔ _ <;>
        simp only [hff _ hb, true_iff] <;> omega
    · rw [update_of_ne (by omega), update_of_ne (by omega), update_of_ne (by omega)]
      simp
      omega

/-- The blocks that are busy in `myFreeMap` once the first loop is through. -/
def Marked (s : Globals) (b : Nat) : Prop :=
  b ≤ 28 ∨ ∃ i < s.ninodes, Names (markInodes i (seedMap s)) (i + 1) b

theorem busy_marked (h : Fresh s) (b : Nat) :
    (markInodes s.ninodes (seedMap s)).myFreeMap.busy b = true ↔ Marked s b := by
  rw [busy_markInodes, busy_seedMap h, Marked]

-- ---------------------------------------------------------------------------
-- Comparing the maps
-- ---------------------------------------------------------------------------

def Globals.maps (s : Globals) : Bitmap × Bitmap := (s.theirFreeMap, s.myFreeMap)

/-- Destroying inodes leaves both maps alone. -/
theorem destroyFrom_maps (addr : BitVec 32) (n i : Nat) (s : Globals) :
    (destroyFrom addr n i s).maps = s.maps := by
  induction n generalizing i s with
  | zero => rfl
  | succ n ih =>
    unfold destroyFrom
    dsimp only
    split
    · rfl
    · split
      · rfl
      · split
        · split
          · rfl
          · exact ih ..
        · exact ih ..

theorem compareByte_maps (i : Nat) (s : Globals) :
    (compareByte i s).maps =
      (update s.theirFreeMap i (s.theirFreeMap i &&& s.myFreeMap i),
        update s.myFreeMap i (s.myFreeMap i ^^^ (s.theirFreeMap i &&& s.myFreeMap i))) := by
  unfold compareByte
  dsimp only
  split
  · rw [loop_frame Globals.maps fun n t => ?_]
    · simp only [Globals.maps, Globals.touch, update_self]
    · split
      · exact destroyFrom_maps ..
      · rfl
  · simp only [Globals.maps, Globals.touch, update_self]

/-- Once `n` bytes are compared, `theirFreeMap` has lost the bits that are not
in `myFreeMap`, which keeps the bits that were not in `theirFreeMap`. -/
theorem compareBytes_maps (n : Nat) (s : Globals) (c : Int) :
    (loop n compareByte s).theirFreeMap c =
        (if 0 ≤ c ∧ c < n then s.theirFreeMap c &&& s.myFreeMap c else s.theirFreeMap c) ∧
      (loop n compareByte s).myFreeMap c =
        (if 0 ≤ c ∧ c < n then s.myFreeMap c ^^^ (s.theirFreeMap c &&& s.myFreeMap c)
          else s.myFreeMap c) := by
  induction n with
  | zero =>
    rw [loop_zero, if_neg (by omega), if_neg (by omega)]
    exact ⟨rfl, rfl⟩
  | succ n ih =>
    have hm := compareByte_maps n (loop n compareByte s)
    rw [loop_succ]
    simp only [Globals.maps, Prod.mk.injEq] at hm
    rw [hm.1, hm.2]
    by_cases hc : c = n
    · subst hc
      rw [if_neg (by omega), if_neg (by omega)] at ih
      rw [update_self, update_self, if_pos (by omega), if_pos (by omega), ih.1, ih.2]
      exact ⟨rfl, rfl⟩
    · rw [update_of_ne hc, update_of_ne hc]
      have : (0 ≤ c ∧ c < ((n + 1 : Nat) : Int)) ↔ (0 ≤ c ∧ c < n) := by omega
      simp only [this]
      exact ih

/-- A map that counts block `b`. -/
def Covers (s : Globals) (b : Nat) : Prop := b < 8 * s.numBlockChars

theorem checkFreeMap_busy (h : Fresh s) (hb : Covers s b) :
    ((checkFreeMap s).theirFreeMap.busy b = true ↔
        s.theirFreeMap.busy b = true ∧ Marked s b) ∧
      ((checkFreeMap s).myFreeMap.busy b = true ↔
        ¬ s.theirFreeMap.busy b = true ∧ Marked s b) := by
  unfold Covers at hb
  have hn : (markInodes s.ninodes (seedMap s)).numBlockChars = s.numBlockChars :=
    markInodes_numBlockChars ..
  have ht : (markInodes s.ninodes (seedMap s)).theirFreeMap = s.theirFreeMap :=
    markInodes_theirFreeMap ..
  have hc := compareBytes_maps s.numBlockChars (markInodes s.ninodes (seedMap s)) ((b / 8 : Nat) : Int)
  rw [if_pos (by omega), if_pos (by omega), ht] at hc
  rw [← busy_marked h]
  unfold checkFreeMap Bitmap.busy
  dsimp only
  have h0 : (seedMap s).ninodes = s.ninodes := rfl
  rw [h0, hn, hc.1, hc.2, BitVec.getLsbD_and, BitVec.getLsbD_xor, BitVec.getLsbD_and]
  cases (s.theirFreeMap ((b / 8 : Nat) : Int)).getLsbD (b % 8) <;>
    cases ((markInodes s.ninodes (seedMap s)).myFreeMap ((b / 8 : Nat) : Int)).getLsbD (b % 8) <;>
    simp

end PerrOS.Fsck
