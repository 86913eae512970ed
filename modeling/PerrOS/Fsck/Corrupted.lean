import Mathlib.Data.List.Find
import PerrOS.Fsck.FreeMap

/-!
# Corrupted inodes

Which inodes `checkFreeMap` invalidates. Marking counts the bits of a byte
from the least significant one and the search for a missing block counts them
from the most significant one, so an inode is invalidated for the mirror
image of a missing block, and only the first that names it.
-/

namespace PerrOS.Fsck

open Lib Function

/-- Inode `i` names block `a`: directly, as its indirect block or in its
indirect block. -/
def Globals.refers (s : Globals) (i : Nat) (a : BitVec 32) : Bool :=
  let inode := s.myInodes i
  ((List.range NDIRECT).any fun j => inode.addrs j = a) || decide (inode.addrs NDIRECT = a) ||
    (decide (0 < inode.addrs NDIRECT) &&
      (List.range NINDIRECT).any fun j => (readEntries (inode.addrs NDIRECT) s).1 j = a)

/-- The first inode of the table that names block `a`. -/
def Globals.firstNaming (s : Globals) (a : BitVec 32) : Option Nat :=
  (List.range s.ninodes).find? fun i => s.refers i a

/-- The byte offsets of the indirect blocks fit an `int`, so that seeking to
them works. -/
def Seekable (s : Globals) : Prop :=
  ∀ i < s.ninodes, 512 * ((s.myInodes i).addrs NDIRECT).toNat < 2 ^ 31

-- ---------------------------------------------------------------------------
-- The search
-- ---------------------------------------------------------------------------

variable {s t : Globals}

/-- What the search reads: the disk and the addresses in the table. -/
def Globals.disk (s : Globals) : Memory × Nat × Memory × Superblock × (Nat → Nat → BitVec 32) :=
  (s.image.data, s.image.length, s.garbage, s.mySuperblock, fun i => (s.myInodes i).addrs)

theorem readEntries_of_disk (h : s.disk = t.disk) (ha : 512 * addr.toNat < 2 ^ 31) :
    (readEntries addr s).1 = (readEntries addr t).1 := by
  simp only [Globals.disk, Prod.mk.injEq] at h
  unfold readEntries Image.read
  simp only [Image.seekToBlock_pos _ ha, Image.seekToBlock_data, Image.seekToBlock_length, h.1,
    h.2.1, h.2.2.1]

theorem readEntries_disk (addr : BitVec 32) (s : Globals) : (readEntries addr s).2.disk = s.disk := by
  simp [readEntries, Globals.disk]

theorem addrs_of_disk (h : s.disk = t.disk) (i : Nat) :
    (s.myInodes i).addrs = (t.myInodes i).addrs := by
  simp only [Globals.disk, Prod.mk.injEq] at h
  exact congrFun h.2.2.2.2 i

theorem refers_of_disk (h : s.disk = t.disk)
    (hi : 512 * ((s.myInodes i).addrs NDIRECT).toNat < 2 ^ 31) (a : BitVec 32) :
    s.refers i a = t.refers i a := by
  unfold Globals.refers
  dsimp only
  rw [readEntries_of_disk h hi, addrs_of_disk h]

theorem ninodes_of_disk (h : s.disk = t.disk) : s.ninodes = t.ninodes := by
  simp only [Globals.disk, Prod.mk.injEq] at h
  unfold Globals.ninodes
  rw [h.2.2.2.1]

/-- `t` is `s` with the inodes that `dead` names invalidated. -/
structure Swept (s t : Globals) (dead : Nat → Prop) : Prop where
  disk : t.disk = s.disk
  alive : ∀ i, ¬ dead i → t.myInodes i = s.myInodes i
  cleared : ∀ i, dead i → t.myInodes i = { s.myInodes i with type := 0 }

variable {dead dead' : Nat → Prop}

theorem Swept.congr (h : Swept s t dead) (hd : ∀ i, dead i ↔ dead' i) : Swept s t dead' :=
  ⟨h.disk, fun i hi => h.alive i (mt (hd i).mp hi), fun i hi => h.cleared i ((hd i).mpr hi)⟩

theorem destroy_disk (i : Nat) (s : Globals) : (s.destroy i).disk = s.disk := by
  simp only [Globals.disk, Globals.destroy, Prod.mk.injEq, true_and]
  funext k
  by_cases hk : k = i
  · rw [hk, update_self]
  · rw [update_of_ne hk]

theorem Swept.destroy (h : Swept s t dead) (i : Nat) :
    Swept s (t.destroy i) fun k => dead k ∨ i = k := by
  refine ⟨(destroy_disk i t).trans h.disk, fun k hk => ?_, fun k hk => ?_⟩
  · obtain ⟨hd, hne⟩ := not_or.mp hk
    exact (update_of_ne (Ne.symm hne) ..).trans (h.alive k hd)
  · by_cases hki : k = i
    · subst hki
      by_cases hd : dead k
      · simp [Globals.destroy, h.cleared k hd]
      · simp [Globals.destroy, h.alive k hd]
    · obtain hd | hd := hk
      · exact (update_of_ne hki ..).trans (h.cleared k hd)
      · exact absurd hd.symm hki

/-- Reading and logging sweep nothing. -/
theorem Swept.of_eq (h : Swept s t dead) (hd : t'.disk = t.disk) (hi : t'.myInodes = t.myInodes) :
    Swept s t' dead :=
  ⟨hd.trans h.disk, fun i hn => by rw [hi, h.alive i hn], fun i hn => by rw [hi, h.cleared i hn]⟩

/-- The search invalidates the first inode from `i` on that names the block. -/
theorem Swept.after_destroyFrom (h : Swept s t dead) (hs : Seekable s) (hn : i + n ≤ s.ninodes)
    (a : BitVec 32) :
    Swept s (destroyFrom a n i t) fun k =>
      dead k ∨ (List.range' i n).find? (fun i => s.refers i a) = some k := by
  induction n generalizing i t with
  | zero => exact h.congr fun k => by simp [List.range']
  | succ n ih =>
    have href : s.refers i a = t.refers i a := refers_of_disk h.disk.symm (hs i (by omega)) a
    have hrest (t' : Globals) (hd : t'.disk = t.disk) (hi : t'.myInodes = t.myInodes)
        (hne : s.refers i a = false) :
        Swept s (destroyFrom a n (i + 1) t') fun k =>
          dead k ∨ (List.range' i (n + 1)).find? (fun i => s.refers i a) = some k := by
      refine (ih (h.of_eq hd hi) (by omega)).congr fun k => ?_
      rw [List.range'_succ, List.find?_cons, hne]
    have hkill (t' : Globals) (hd : t'.disk = t.disk) (hi : t'.myInodes = t.myInodes)
        (hyes : s.refers i a = true) :
        Swept s (t'.destroy i) fun k =>
          dead k ∨ (List.range' i (n + 1)).find? (fun i => s.refers i a) = some k := by
      refine ((h.of_eq hd hi).destroy i).congr fun k => ?_
      rw [List.range'_succ, List.find?_cons, hyes, Option.some.injEq]
    have he : (readEntries ((t.myInodes i).addrs NDIRECT) (t.touch (.inode i))).1 =
        (readEntries ((t.myInodes i).addrs NDIRECT) t).1 := readEntries_congr rfl rfl _
    rw [destroyFrom]
    have hti : (t.touch (.inode i)).myInodes = t.myInodes := rfl
    simp only [hti]
    by_cases hdir : ((List.range NDIRECT).any fun j => (t.myInodes i).addrs j = a) = true
    · rw [if_pos hdir]
      exact hkill _ rfl rfl (href.trans (by simp only [Globals.refers, hdir, Bool.true_or]))
    have hdir' := Bool.eq_false_of_not_eq_true hdir
    rw [if_neg hdir]
    by_cases hind : (t.myInodes i).addrs NDIRECT = a
    · rw [if_pos hind]
      exact hkill _ rfl rfl (href.trans (by
        simp only [Globals.refers, hind, decide_true, Bool.or_true, Bool.true_or]))
    rw [if_neg hind]
    by_cases hpos : 0 < (t.myInodes i).addrs NDIRECT
    · rw [if_pos hpos, he]
      by_cases hent : ((List.range NINDIRECT).any fun j =>
          (readEntries ((t.myInodes i).addrs NDIRECT) t).1 j = a) = true
      · rw [if_pos hent]
        exact hkill _ (readEntries_disk ..) rfl (href.trans (by
          simp only [Globals.refers, hent, hpos, decide_true, Bool.true_and, Bool.or_true]))
      · rw [if_neg hent]
        have hent := Bool.eq_false_of_not_eq_true hent
        exact hrest _ (readEntries_disk ..) rfl (href.trans (by
          simp only [Globals.refers, hdir', hent, hind, decide_false, Bool.or_self, Bool.and_false]))
    · rw [if_neg hpos]
      exact hrest _ rfl rfl (href.trans (by
        simp only [Globals.refers, hdir', hind, hpos, decide_false, Bool.or_self, Bool.false_and]))

theorem Swept.after_destroyInode (h : Swept s t dead) (hs : Seekable s) (a : BitVec 32) :
    Swept s (destroyInodeFromBlockAddr a t) fun k => dead k ∨ s.firstNaming a = some k := by
  unfold destroyInodeFromBlockAddr Globals.firstNaming
  rw [ninodes_of_disk h.disk, List.range_eq_range']
  exact h.after_destroyFrom hs (Nat.zero_add _).le a

-- ---------------------------------------------------------------------------
-- The sweep over the bytes of the map
-- ---------------------------------------------------------------------------

theorem testMask : ∀ n < 8, ∀ byte : BitVec 8,
    byte &&& (0x80#8 >>> n) ≠ 0 ↔ byte.getLsbD (7 - n) = true := by
  decide +kernel

/-- A block that is marked in `myFreeMap` and free in `theirFreeMap`. -/
def Globals.missing (s : Globals) (b : Nat) : Bool := s.myFreeMap.busy b && !s.theirFreeMap.busy b

theorem getLsbD_missing (t : Globals) (i : Nat) (hn : n < 8) :
    ((t.myFreeMap i) ^^^ (t.theirFreeMap i &&& t.myFreeMap i)).getLsbD n =
      t.missing (8 * i + n) := by
  have hd : (8 * i + n) / 8 = i := by omega
  have hm : (8 * i + n) % 8 = n := by omega
  rw [Globals.missing, Bitmap.busy, Bitmap.busy, hd, hm, BitVec.getLsbD_xor, BitVec.getLsbD_and]
  cases (t.myFreeMap i).getLsbD n <;> cases (t.theirFreeMap i).getLsbD n <;> rfl

/-- The inodes that the scan of one byte invalidates. -/
theorem Swept.after_scanByte (h : Swept s t dead) (hs : Seekable s) (byte : BitVec 8) (i : Nat) :
    Swept s (loop 8 (fun n t =>
        if byte &&& (0x80#8 >>> n) ≠ 0 then destroyInodeFromBlockAddr (.ofNat 32 (i * 8 + n)) t
        else t) t)
      fun k => dead k ∨ ∃ n < 8, byte.getLsbD (7 - n) = true ∧
        s.firstNaming (.ofNat 32 (i * 8 + n)) = some k := by
  refine loop_invariant (P := fun m u => Swept s u fun k => dead k ∨ ∃ n < m,
    byte.getLsbD (7 - n) = true ∧ s.firstNaming (.ofNat 32 (i * 8 + n)) = some k) ?_ ?_
  · exact h.congr fun k => by simp
  · intro n u hn hu
    simp only [testMask n hn]
    have hsucc (k : Nat) : (∃ m < n + 1, byte.getLsbD (7 - m) = true ∧
        s.firstNaming (.ofNat 32 (i * 8 + m)) = some k) ↔
        (∃ m < n, byte.getLsbD (7 - m) = true ∧ s.firstNaming (.ofNat 32 (i * 8 + m)) = some k) ∨
          (byte.getLsbD (7 - n) = true ∧ s.firstNaming (.ofNat 32 (i * 8 + n)) = some k) := by
      simp only [Nat.lt_succ_iff_lt_or_eq, or_and_right, exists_or, exists_eq_left]
    by_cases hbit : byte.getLsbD (7 - n) = true
    · rw [if_pos hbit]
      refine (hu.after_destroyInode hs _).congr fun k => ?_
      rw [hsucc, or_assoc, and_iff_right hbit]
    · rw [if_neg hbit]
      refine hu.congr fun k => ?_
      rw [hsucc]
      simp only [hbit, false_and, or_false, Bool.false_eq_true]

/-- Comparing byte `i` invalidates the first inode that names the mirror image
of each of its missing blocks. -/
theorem Swept.after_compareByte (h : Swept s t dead) (hs : Seekable s) (i : Nat) :
    Swept s (compareByte i t) fun k => dead k ∨ ∃ b, b / 8 = i ∧ t.missing b = true ∧
      s.firstNaming (.ofNat 32 (Bitmap.mirror b)) = some k := by
  let byte := t.myFreeMap i ^^^ (t.theirFreeMap i &&& t.myFreeMap i)
  have hbits (k : Nat) : (∃ b, b / 8 = i ∧ t.missing b = true ∧
      s.firstNaming (.ofNat 32 (Bitmap.mirror b)) = some k) ↔
      ∃ n < 8, byte.getLsbD (7 - n) = true ∧ s.firstNaming (.ofNat 32 (i * 8 + n)) = some k := by
    constructor
    · rintro ⟨b, rfl, hmiss, hk⟩
      refine ⟨7 - b % 8, by omega, ?_, ?_⟩
      · rw [getLsbD_missing t _ (by omega)]
        rwa [show 8 * (b / 8) + (7 - (7 - b % 8)) = b by omega]
      · rwa [Bitmap.mirror, Nat.mul_comm] at hk
    · rintro ⟨n, hn, hbit, hk⟩
      rw [getLsbD_missing t _ (by omega)] at hbit
      refine ⟨8 * i + (7 - n), by omega, hbit, ?_⟩
      rwa [Bitmap.mirror, show 8 * ((8 * i + (7 - n)) / 8) + (7 - (8 * i + (7 - n)) % 8) = i * 8 + n
        by omega]
  simp only [hbits]
  unfold compareByte
  dsimp only [Globals.touch]
  simp only [update_self]
  split
  · refine (h.of_eq ?_ ?_).after_scanByte hs byte i
    · rfl
    · rfl
  · rename_i hzero
    have hz : byte = 0 := not_not.mp hzero
    refine (h.of_eq ?_ ?_).congr fun k => ?_
    · rfl
    · rfl
    · rw [hz]
      simp

theorem missing_compareBytes (t : Globals) (hb : n ≤ b / 8) :
    (loop n compareByte t).missing b = t.missing b := by
  have hm := compareBytes_maps n t ((b / 8 : Nat) : Int)
  rw [if_neg (by omega), if_neg (by omega)] at hm
  rw [Globals.missing, Globals.missing, Bitmap.busy_congr hm.1, Bitmap.busy_congr hm.2]

/-- The inodes that the second loop invalidates once `n` bytes are compared. -/
theorem Swept.after_compareBytes (h : Swept s t fun _ => False) (hs : Seekable s) (n : Nat) :
    Swept s (loop n compareByte t) fun k => ∃ b < 8 * n, t.missing b = true ∧
      s.firstNaming (.ofNat 32 (Bitmap.mirror b)) = some k := by
  induction n with
  | zero =>
    rw [loop_zero]
    exact h.congr fun k => by simp
  | succ n ih =>
    rw [loop_succ]
    refine (ih.after_compareByte hs n).congr fun k => ?_
    constructor
    · rintro (⟨b, hb, hk⟩ | ⟨b, hb, hmiss, hk⟩)
      · exact ⟨b, by omega, hk⟩
      · rw [missing_compareBytes t hb.ge] at hmiss
        exact ⟨b, by omega, hmiss, hk⟩
    · rintro ⟨b, hb, hmiss, hk⟩
      by_cases hlt : b < 8 * n
      · exact .inl ⟨b, hlt, hmiss, hk⟩
      · refine .inr ⟨b, by omega, ?_, hk⟩
        rwa [missing_compareBytes t (by omega)]

-- ---------------------------------------------------------------------------
-- Corrupted inodes
-- ---------------------------------------------------------------------------

/-- A block that `checkFreeMap` finds in use but free on disk. -/
def Missing (s : Globals) (b : Nat) : Prop :=
  Covers s b ∧ Marked s b ∧ ¬ s.theirFreeMap.busy b = true

/-- Inode `i` is the first to name the mirror image of a missing block. -/
def Hit (s : Globals) (i : Nat) : Prop :=
  ∃ b, Missing s b ∧ s.firstNaming (.ofNat 32 (Bitmap.mirror b)) = some i

theorem swept_checkFreeMap (hf : Fresh s) (hs : Seekable s) : Swept s (checkFreeMap s) (Hit s) := by
  have hin := markInodes_inputs s.ninodes (seedMap s)
  have hn : (markInodes s.ninodes (seedMap s)).numBlockChars = s.numBlockChars :=
    markInodes_numBlockChars ..
  have ht : (markInodes s.ninodes (seedMap s)).theirFreeMap = s.theirFreeMap :=
    markInodes_theirFreeMap ..
  have hi : (markInodes s.ninodes (seedMap s)).myInodes = s.myInodes :=
    (congrArg Globals.myInodes hin :)
  have h0 : Swept s (markInodes s.ninodes (seedMap s)) fun _ => False :=
    ⟨(congrArg Globals.disk hin :), fun i _ => by rw [hi], fun i h => h.elim⟩
  unfold checkFreeMap
  dsimp only
  have hs0 : (seedMap s).ninodes = s.ninodes := rfl
  rw [hs0, hn]
  refine (h0.after_compareBytes hs _).congr fun k => ?_
  unfold Hit Missing Covers
  refine exists_congr fun b => ?_
  have hm : (markInodes s.ninodes (seedMap s)).missing b = true ↔
      Marked s b ∧ ¬ s.theirFreeMap.busy b = true := by
    rw [Globals.missing, Bool.and_eq_true, busy_marked hf, ht, Bool.not_eq_true', Bool.not_eq_true]
  simp only [hm, and_assoc]

/-- Inode `i` references block `a`, which is not the null block. -/
def References (s : Globals) (i : Nat) (a : BitVec 32) : Prop := a ≠ 0 ∧ s.refers i a = true

/-- Every referenced block has a bit in the map and a byte offset that fits
an `int`. -/
def CoveredTable (s : Globals) : Prop :=
  ∀ i < s.ninodes, ∀ a, References s i a → Covers s a.toNat ∧ 512 * a.toNat < 2 ^ 31

theorem CoveredTable.seekable (hc : CoveredTable s) : Seekable s := by
  intro i hi
  by_cases h0 : (s.myInodes i).addrs NDIRECT = 0
  · rw [h0]
    decide
  · exact (hc i hi _ ⟨h0, by simp [Globals.refers]⟩).2

/-- The blocks of an inode of type 1 to 3 in the table are marked: the first
loop leaves out inode 0 only. -/
theorem CoveredTable.marked (hc : CoveredTable s) (hi : i < s.ninodes) (h0 : i ≠ 0)
    (ht : (s.myInodes i).typed = true) (ha : References s i a) : Marked s a.toNat := by
  obtain ⟨n, rfl⟩ := Nat.exists_eq_succ_of_ne_zero h0
  have hlt := (hc _ hi a ha).2
  have htoInt : a.toInt = a.toNat := BitVec.toInt_eq_toNat_of_lt (by omega)
  have hpos : 0 < a.toNat := Nat.pos_of_ne_zero fun hz => ha.1 (BitVec.eq_of_toNat_eq hz)
  have hin := markInodes_inputs n (seedMap s)
  have hino : (markInodes n (seedMap s)).myInodes = s.myInodes := (congrArg Globals.myInodes hin :)
  have hdisk : (markInodes n (seedMap s)).disk = s.disk := (congrArg Globals.disk hin :)
  refine .inr ⟨n, by omega, ?_⟩
  unfold Names
  rw [hino]
  refine ⟨ht, ?_⟩
  have href := ha.2
  simp only [Globals.refers, Bool.or_eq_true, Bool.and_eq_true, List.any_eq_true, List.mem_range,
    decide_eq_true_eq] at href
  obtain (⟨j, hj, rfl⟩ | hind) | ⟨hind, j, hj, hent⟩ := href
  · exact .inl ⟨j, hj, htoInt⟩
  · have hz : (0 : BitVec 32).toNat = 0 := rfl
    exact .inr ⟨by rw [hind, BitVec.lt_def, hz]; exact hpos, .inl (by rw [hind, htoInt])⟩
  · refine .inr ⟨hind, .inr ⟨j, hj, ?_⟩⟩
    rw [readEntries_of_disk hdisk (hc.seekable _ hi), hent, htoInt]
    omega

/-- An inode of type 1 to 3 keeps its type exactly when the disk's map has all
its blocks busy, and then so has the corrected map. -/
def InvalidatesCorrupted (s : Globals) : Prop :=
  ∀ i < s.ninodes, (s.myInodes i).typed = true →
    (((checkFreeMap s).myInodes i).type = (s.myInodes i).type ↔
      ∀ a, References s i a → s.theirFreeMap.busy a.toNat = true) ∧
    (((checkFreeMap s).myInodes i).type = (s.myInodes i).type →
      ∀ a, References s i a → (checkFreeMap s).theirFreeMap.busy a.toNat = true)

/-- The inodes of type 1 to 3 with a block that is free on disk are the ones
hit by the mirror image of a missing block, and inode 0, which the first loop
leaves out, has no blocks of its own. -/
def Mirrored (s : Globals) : Prop :=
  ∀ i < s.ninodes, (s.myInodes i).typed = true →
    ((∃ a, References s i a ∧ ¬ s.theirFreeMap.busy a.toNat = true) ↔ Hit s i) ∧
    (i = 0 → (∀ a, References s i a → s.theirFreeMap.busy a.toNat = true) →
      ∀ a, References s i a → Marked s a.toNat)

theorem survives_iff (hf : Fresh s) (hs : Seekable s) (ht : (s.myInodes i).typed = true) :
    ((checkFreeMap s).myInodes i).type = (s.myInodes i).type ↔ ¬ Hit s i := by
  have hw := swept_checkFreeMap hf hs
  constructor
  · intro h hit
    rw [hw.cleared i hit] at h
    simp [Dinode.typed, ← h] at ht
  · intro h
    rw [hw.alive i h]

/-- `checkFreeMap` invalidates exactly the corrupted inodes of a table exactly
when mirroring the bits of each byte happens to make no difference to it. -/
theorem invalidates_corrupted_iff (hf : Fresh s) (hc : CoveredTable s) :
    InvalidatesCorrupted s ↔ Mirrored s := by
  unfold InvalidatesCorrupted Mirrored
  refine forall_congr' fun i => forall_congr' fun hi => forall_congr' fun ht => ?_
  have hs := hc.seekable
  have hbusy (a) (ha : References s i a) : (checkFreeMap s).theirFreeMap.busy a.toNat = true ↔
      s.theirFreeMap.busy a.toNat = true ∧ Marked s a.toNat :=
    (checkFreeMap_busy hf (hc i hi a ha).1).1
  rw [survives_iff hf hs ht]
  have hfree : (∃ a, References s i a ∧ ¬ s.theirFreeMap.busy a.toNat = true) ↔
      ¬ ∀ a, References s i a → s.theirFreeMap.busy a.toNat = true := by
    simp only [not_forall, exists_prop]
  rw [hfree]
  constructor
  · rintro ⟨hkeep, hafter⟩
    refine ⟨by rw [← hkeep, not_not], fun _ hall a ha => ?_⟩
    exact ((hbusy a ha).mp (hafter (hkeep.mpr hall) a ha)).2
  · rintro ⟨hhit, hzero⟩
    refine ⟨by rw [← hhit, not_not], fun hnot a ha => ?_⟩
    have hall := not_not.mp (mt hhit.mp hnot)
    refine (hbusy a ha).mpr ⟨hall a ha, ?_⟩
    by_cases h0 : i = 0
    · exact hzero h0 hall a ha
    · exact hc.marked hi h0 ht ha

-- The image that `mkfs` makes, with the root directory's block 29 free in the
-- map on disk.
def rootFreed : Globals where
  image := emptyFile
  garbage := fun _ => 0
  mySuperblock := ⟨1024, 995, 200⟩
  myInodes i := if i = 1 then { Dinode.zero with type := 1, addrs j := if j = 0 then 29 else 0 }
    else Dinode.zero
  theirFreeMap c := if c = 3 then 0xdf else 0xff
  myFreeMap := fun _ => 0
  touched := []

theorem refers_rootFreed (h : rootFreed.refers i a = true) : a = 0 ∨ (i = 1 ∧ a = 29) := by
  simp only [Globals.refers, Bool.or_eq_true, Bool.and_eq_true, List.any_eq_true, List.mem_range,
    decide_eq_true_eq] at h
  have hind : (rootFreed.myInodes i).addrs NDIRECT = 0 := by
    unfold rootFreed
    dsimp only
    split <;> rfl
  rw [hind] at h
  obtain (⟨j, -, rfl⟩ | rfl) | ⟨h, -⟩ := h
  · unfold rootFreed
    dsimp only
    split
    · dsimp only
      split
      · exact .inr ⟨by assumption, rfl⟩
      · exact .inl rfl
    · exact .inl rfl
  · exact .inl rfl
  · exact absurd h (by decide)

theorem fresh_rootFreed : Fresh rootFreed := rfl

theorem coveredTable_rootFreed : CoveredTable rootFreed := by
  intro i _ a ha
  obtain h | ⟨-, rfl⟩ := refers_rootFreed ha.2
  · exact absurd h ha.1
  · exact ⟨show 29 < 1024 by decide, by decide⟩

/-- Block 29 is searched for under its mirror image 26, which nothing names:
the root keeps its type. -/
theorem corrupted_root_survives : Fresh rootFreed ∧ CoveredTable rootFreed ∧
    ¬ InvalidatesCorrupted rootFreed := by
  refine ⟨fresh_rootFreed, coveredTable_rootFreed, fun h => ?_⟩
  have hkeep := (survives_iff (i := 1) fresh_rootFreed coveredTable_rootFreed.seekable
    (by decide)).mpr ?_
  · exact absurd ((h 1 (by decide) (by decide)).1.mp hkeep 29 ⟨by decide, by decide⟩) (by decide)
  · rintro ⟨b, ⟨hcov, -, hfree⟩, hfirst⟩
    have hb : b < 1024 := hcov
    have href := List.find?_some hfirst
    have hmirror : Bitmap.mirror b < 1032 := by
      unfold Bitmap.mirror
      omega
    have hnat : (BitVec.ofNat 32 (Bitmap.mirror b)).toNat = Bitmap.mirror b := by
      rw [BitVec.toNat_ofNat, Nat.mod_eq_of_lt (by omega)]
    have hmb := Bitmap.mirror_mirror b
    obtain h0 | ⟨-, h29⟩ := refers_rootFreed href
    · rw [h0] at hnat
      rw [← hnat] at hmb
      rw [← hmb] at hfree
      exact hfree (by decide)
    · rw [h29] at hnat
      rw [← hnat] at hmb
      rw [← hmb] at hfree
      exact hfree (by decide)

theorem invalidates_corrupted_iff_root : InvalidatesCorrupted rootFreed ↔ Mirrored rootFreed :=
  invalidates_corrupted_iff fresh_rootFreed coveredTable_rootFreed

end PerrOS.Fsck
