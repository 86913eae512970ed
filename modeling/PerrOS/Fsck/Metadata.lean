import PerrOS.Fsck.Corrupted
import PerrOS.Fsck.Walk

/-!
# Metadata blocks

The blocks up to the last bitmap block stay busy in the map that is written
back exactly when the first loop marked them all and the walk clears no inode
that names a block in their bytes of the map. `checkFreeMap` marks blocks 0 to
28 whatever the layout, and freeing a block puts the missing blocks of its
byte in place of the whole byte.
-/

namespace PerrOS.Fsck

open Lib Function

-- ---------------------------------------------------------------------------
-- Accepted superblocks
-- ---------------------------------------------------------------------------

/-- What `checkSuperblock` makes sure of. -/
structure Superblock.Accepted (super : Superblock) : Prop where
  size : super.size = super.expectedSize
  sane : super.sane = true
  ninodes : super.ninodes ≠ 0

theorem accepted_of_valid (h : (checkSuperblock super img).valid = true) :
    (checkSuperblock super img).super.Accepted := by
  cases hz : (readSuperblock super img).1.anyZero with
  | true =>
    rw [checkSuperblock_of_zero hz] at h
    cases h
  | false =>
    have hn : (readSuperblock super img).1.ninodes ≠ 0 := by
      simp only [Superblock.anyZero, decide_eq_false_iff_not, not_or] at hz
      exact hz.2.2
    by_cases he : (readSuperblock super img).1.size = (readSuperblock super img).1.expectedSize
    · rw [checkSuperblock_of_agrees hz he] at h ⊢
      dsimp only at h ⊢
      exact ⟨he, h, hn⟩
    · rw [checkSuperblock_of_differs hz he] at h ⊢
      dsimp only at h ⊢
      exact ⟨rfl, h, hn⟩

/-- What `main` reads from an image with an accepted superblock. -/
theorem load_spec (h : load heap garbage img = some s) : s.mySuperblock.Accepted ∧ Fresh s := by
  unfold load at h
  dsimp only at h
  split at h
  · next hv =>
    have hacc := accepted_of_valid hv
    generalize checkSuperblock ⟨0, 0, 0⟩ img = c at h hacc
    cases h
    exact ⟨hacc, rfl⟩
  · cases h

/-- The last block of the bitmap. -/
def metadataEnd (s : Globals) : Nat :=
  s.ninodes / IPB + 3 + s.mySuperblock.size.toNat / (512 * 8)

/-- What an accepted superblock satisfies, without overflow. -/
theorem Superblock.Accepted.size_eq {super : Superblock} (h : super.Accepted) :
    super.size.toNat = 4 + super.ninodes.toNat / IPB + super.nblocks.toNat ∧
      super.size.toNat % BSIZE = 0 ∧ super.ninodes.toNat ≤ super.size.toNat := by
  have hsize := congrArg BitVec.toNat h.size
  have hsane := h.sane
  have h4 : (4 : BitVec 32).toNat = 4 := rfl
  have h0 : (0 : BitVec 32).toNat = 0 := rfl
  simp only [Superblock.sane, decide_eq_true_eq, ← BitVec.toNat_inj, BitVec.lt_def,
    BitVec.toNat_umod, BitVec.toNat_ofNat, BSIZE, h0, Nat.reducePow, Nat.reduceMod] at hsane
  simp only [Superblock.expectedSize, BitVec.toNat_add, BitVec.toNat_udiv, BitVec.toNat_ofNat, IPB,
    BSIZE, dinodeSize, h4, Nat.reducePow, Nat.reduceMod, Nat.reduceDiv] at hsize
  have hlt := super.size.isLt
  have hlt' := super.ninodes.isLt
  simp only [IPB, BSIZE, dinodeSize]
  omega

/-- The bytes of a map are enough for its bits, and no more. -/
theorem numBlockChars_bounds {s : Globals} (h : s.mySuperblock.Accepted) :
    s.mySuperblock.nblocks.toNat + 29 ≤ 8 * s.numBlockChars ∧
      8 * s.numBlockChars ≤ s.mySuperblock.nblocks.toNat + 36 := by
  obtain ⟨hsum, hmod, -⟩ := h.size_eq
  have hlt := s.mySuperblock.size.isLt
  have h29 : (29 : BitVec 32).toNat = 29 := rfl
  have h8 : (8 : BitVec 32).toNat = 8 := rfl
  have h0 : (0 : BitVec 32).toNat = 0 := rfl
  simp only [IPB, BSIZE, dinodeSize] at hsum hmod
  simp only [Globals.numBlockChars, ne_eq, ← BitVec.toNat_inj, BitVec.toNat_udiv,
    BitVec.toNat_umod, BitVec.toNat_add, h29, h8, h0]
  split <;> omega

/-- The map of an accepted superblock counts all its metadata blocks. -/
theorem covers_metadata {s : Globals} (h : s.mySuperblock.Accepted) (hb : b ≤ metadataEnd s) :
    Covers s b := by
  obtain ⟨hsum, hmod, hn⟩ := h.size_eq
  have hround := (numBlockChars_bounds h).1
  simp only [metadataEnd, Globals.ninodes] at hb
  simp only [IPB, BSIZE, dinodeSize] at hb hsum hmod
  unfold Covers
  omega

-- ---------------------------------------------------------------------------
-- The walk
-- ---------------------------------------------------------------------------

/-- Blocks 0 to `m` are busy in the map to be written back. -/
def KeepsBusy (m : Nat) (t : Globals) : Prop := ∀ b ≤ m, t.theirFreeMap.busy b = true

/-- The next step clears no inode with a block number in a byte of the map
that counts one of the blocks 0 to `m`. A direct number that is not in use
counts as block 0. -/
def SparesMetadata (m : Nat) (w : Walk) (_ : Unit) : Prop :=
  ∀ f rest inum, w.frames = f :: rest → f.called = false → f.action w.globals = .clear inum →
    ∀ addr, Frees w.globals (w.globals.myInodes inum) addr →
      ∀ b ≤ m, getCharIndexFromAddr addr ≠ ((b / 8 : Nat) : Int)

/-- None of the blocks 0 to `m` is left in `myFreeMap`, where the walk takes
the bytes it puts into the map from. -/
def NoneMissing (m : Nat) (s : Globals) : Prop := ∀ b ≤ m, s.myFreeMap.busy b = false

section Step

variable {s t : Globals} {hit : Int → Prop}

theorem Freed.busy_of_hit (h : Freed s t hit) (hs : s.myFreeMap.busy b = false)
    (hb : hit ((b / 8 : Nat) : Int)) : t.theirFreeMap.busy b = false := by
  obtain ⟨x, hx⟩ := h.wiped _ hb
  unfold Bitmap.busy at hs ⊢
  rw [hx, BitVec.getLsbD_and, hs, Bool.and_false]

theorem Freed.busy_of_not_hit (h : Freed s t hit) (hb : ¬ hit ((b / 8 : Nat) : Int)) :
    t.theirFreeMap.busy b = s.theirFreeMap.busy b := Bitmap.busy_congr (h.kept _ hb)

/-- A step either frees nothing or clears an inode. -/
theorem Step.freed {w w' : Walk} (h : Step w w') :
    Freed w.globals w'.globals fun c => ∃ f rest inum addr, w.frames = f :: rest ∧
      f.called = false ∧ f.action w.globals = .clear inum ∧
      Frees w.globals (w.globals.myInodes inum) addr ∧ getCharIndexFromAddr addr = c := by
  have hmaps (f : Frame) (s t : Globals) (ht : t.maps = s.maps) (hact : ∀ inum,
      f.called = false → f.action s ≠ .clear inum) (rest : List Frame) :
      Freed s t fun c => ∃ f' rest' inum addr, f :: rest = f' :: rest' ∧
        f'.called = false ∧ f'.action s = .clear inum ∧
        Frees s (s.myInodes inum) addr ∧ getCharIndexFromAddr addr = c := by
    refine (Freed.of_maps ht).congr fun c => ⟨False.elim, ?_⟩
    rintro ⟨f', rest', inum, addr, he, hc, ha, -⟩
    cases he
    exact hact inum hc ha
  cases h with
  | returned s f rest hc =>
    exact hmaps f s _ (writeDirectory_maps ..) (fun _ hf => by simp [hc] at hf) rest
  | leave s f rest hc ha =>
    refine hmaps f s _ ?_ (fun _ _ => by simp [ha]) rest
    rfl
  | skip s f rest hc ha =>
    refine hmaps f s _ ?_ (fun _ _ => by simp [ha]) rest
    exact writeDirectory_maps ..
  | keep s f rest inum hc ha =>
    refine hmaps f s _ ?_ (fun _ _ => by simp [ha]) rest
    exact writeDirectory_maps ..
  | descend s f rest inum r hc ha hr =>
    refine hmaps f s _ ?_ (fun _ _ => by simp [ha]) rest
    rw [hr]
    exact enter_maps inum f.parentInum _
  | clear s f rest inum hc ha =>
    have hfreed := (freed_clearInode inum ((s.touch (.inode f.parentInum)).touch (.inode inum))).trans
      (.of_maps (writeDirectory_maps { f with parentDirectory := clearEntry f.i f.parentDirectory } _))
    refine ⟨hfreed.myFreeMap, fun c hn => hfreed.kept c ?_, fun c hy => hfreed.wiped c ?_⟩
    · rintro (⟨addr, hf, hcc⟩ | hf)
      · exact hn ⟨f, rest, inum, addr, rfl, hc, ha, hf, hcc⟩
      · exact hf
    · obtain ⟨f', rest', inum', addr, he, -, ha', hf, hcc⟩ := hy
      cases he
      rw [ha] at ha'
      cases ha'
      exact .inl ⟨addr, hf, hcc⟩

end Step

/-- What a step makes of the blocks 0 to `m` when none of them is missing. -/
theorem Step.keepsBusy_iff {w w' : Walk} (h : Step w w') (hm : NoneMissing m w.globals) :
    NoneMissing m w'.globals ∧
      (KeepsBusy m w'.globals ↔ KeepsBusy m w.globals ∧ SparesMetadata m w ()) := by
  have hfreed := h.freed
  refine ⟨fun b hb => by rw [hfreed.myFreeMap, hm b hb], ?_⟩
  constructor
  · intro hk
    have hnot (b) (hb : b ≤ m) := mt (hfreed.busy_of_hit (hm b hb)) (by simp [hk b hb])
    refine ⟨fun b hb => ?_, fun f rest inum hfr hc ha addr hf b hb hcc => ?_⟩
    · rw [← hfreed.busy_of_not_hit (hnot b hb), hk b hb]
    · exact hnot b hb ⟨f, rest, inum, addr, hfr, hc, ha, hf, hcc⟩
  · rintro ⟨hk, hok⟩ b hb
    rw [hfreed.busy_of_not_hit, hk b hb]
    rintro ⟨f, rest, inum, addr, hfr, hc, ha, hf, hcc⟩
    exact hok f rest inum hfr hc ha addr hf b hb hcc

/-- The metadata blocks are busy when the walk starts exactly when the first
loop has marked them all. -/
theorem keepsBusy_start {s : Globals} (ha : s.mySuperblock.Accepted) (hf : Fresh s)
    (hbusy : KeepsBusy (metadataEnd s) s) :
    NoneMissing (metadataEnd s) (start (checkFreeMap s)).globals ∧
      (KeepsBusy (metadataEnd s) (start (checkFreeMap s)).globals ↔
        ∀ b ≤ metadataEnd s, Marked s b) := by
  have hmaps := enter_maps ROOTINO ROOTINO (checkFreeMap s)
  simp only [Globals.maps, Prod.mk.injEq] at hmaps
  have hc (b) (hb : b ≤ metadataEnd s) := checkFreeMap_busy hf (covers_metadata ha hb)
  unfold NoneMissing KeepsBusy start
  dsimp only
  rw [hmaps.1, hmaps.2]
  constructor
  · intro b hb
    rw [Bool.eq_false_iff]
    exact fun hy => ((hc b hb).2.mp hy).1 (hbusy b hb)
  · refine forall_congr' fun b => forall_congr' fun hb => ?_
    rw [(hc b hb).1, and_iff_right (hbusy b hb)]

/-- As long as the metadata blocks are busy, the first loop has marked them
and no step has freed a block in their bytes. -/
theorem kept_of_run {s : Globals} (ha : s.mySuperblock.Accepted) (hf : Fresh s)
    (hbusy : KeepsBusy (metadataEnd s) s) (hr : (walk (checkFreeMap s)).Run ls w) :
    NoneMissing (metadataEnd s) w.globals ∧ (KeepsBusy (metadataEnd s) w.globals →
      (∀ b ≤ metadataEnd s, Marked s b) ∧
        ((walk (checkFreeMap s)).restrict (SparesMetadata (metadataEnd s))).Run ls w) := by
  obtain ⟨hm0, hk0⟩ := keepsBusy_start ha hf hbusy
  induction hr with
  | init h =>
    rw [h]
    exact ⟨hm0, fun hk => ⟨hk0.mp hk, .init rfl⟩⟩
  | step _ hs ih =>
    obtain ⟨hm, hk⟩ := (Step.of_next hs).keepsBusy_iff ih.1
    refine ⟨hm, fun hy => ?_⟩
    obtain ⟨hprev, hok⟩ := hk.mp hy
    exact ⟨(ih.2 hprev).1, (ih.2 hprev).2.step ⟨hs, hok⟩⟩

/-- A run that spares the metadata keeps it busy. -/
theorem keepsBusy_of_restrict {s : Globals} (ha : s.mySuperblock.Accepted) (hf : Fresh s)
    (hbusy : KeepsBusy (metadataEnd s) s) (hmarked : ∀ b ≤ metadataEnd s, Marked s b)
    (hr : ((walk (checkFreeMap s)).restrict (SparesMetadata (metadataEnd s))).Run ls w) :
    KeepsBusy (metadataEnd s) w.globals := by
  obtain ⟨hm0, hk0⟩ := keepsBusy_start ha hf hbusy
  have hall : NoneMissing (metadataEnd s) w.globals ∧ KeepsBusy (metadataEnd s) w.globals := by
    refine hr.invariant (P := fun _ w => NoneMissing (metadataEnd s) w.globals ∧
      KeepsBusy (metadataEnd s) w.globals) ?_ ?_
    · rintro w rfl
      exact ⟨hm0, hk0.mpr hmarked⟩
    · rintro _ _ _ _ ⟨hm, hk⟩ ⟨hs, hok⟩
      obtain ⟨hm', hk'⟩ := (Step.of_next hs).keepsBusy_iff hm
      exact ⟨hm', hk'.mpr ⟨hk, hok⟩⟩
  exact hall.2

/-- On an image whose map has all its metadata blocks busy they are busy in
the map that fsck writes back exactly when the first loop marks them all and
no step of the walk frees a block in their bytes. -/
theorem metadata_kept_iff (hl : load heap garbage img = some s)
    (hbusy : KeepsBusy (metadataEnd s) s) (hr : (walk (checkFreeMap s)).Run ls w) :
    KeepsBusy (metadataEnd s) w.globals ↔
      (∀ b ≤ metadataEnd s, Marked s b) ∧
        ((walk (checkFreeMap s)).restrict (SparesMetadata (metadataEnd s))).Run ls w := by
  obtain ⟨ha, hf⟩ := load_spec hl
  exact ⟨(kept_of_run ha hf hbusy hr).2, fun ⟨hm, hr⟩ => keepsBusy_of_restrict ha hf hbusy hm hr⟩

-- An image with 400 free inodes, whose metadata blocks are 0 to 53, and a map
-- on disk that has everything busy.
def manyInodes : Image where
  data o :=
    if 512 ≤ o ∧ o < 524 then Superblock.toBytes ⟨512, 458, 400⟩ (o - 512)
    else if 27136 ≤ o ∧ o < 27648 then 0xff
    else 0
  length := 262144
  pos := 0

def manyInodesLoaded : Globals :=
  readTables (fun _ => 0) (fun _ => 0) ⟨512, 458, 400⟩ (readSuperblock ⟨0, 0, 0⟩ manyInodes).2

theorem load_manyInodes : load (fun _ => 0) (fun _ => 0) manyInodes = some manyInodesLoaded := by
  refine load_eq (by decide) (fun k hk => ?_) (by decide) (by decide) (by decide) _ _
  have hk : k < 12 := hk
  simp only [manyInodes]
  rw [if_pos ⟨by omega, by omega⟩, Nat.add_sub_cancel_left]

theorem manyInodes_data (o : Nat) (h : 524 ≤ o) :
    manyInodes.data o = if 27136 ≤ o ∧ o < 27648 then 0xff else 0 := by
  simp only [manyInodes]
  rw [if_neg (by omega)]

theorem busy_manyInodes : KeepsBusy (metadataEnd manyInodesLoaded) manyInodesLoaded := by
  intro b hb
  have hb : b ≤ 53 := hb
  have hbyte : manyInodesLoaded.theirFreeMap ((b / 8 : Nat) : Int) = 0xff := by
    have hstart : (bitMapRegionStart ⟨512, 458, 400⟩).toNat = 53 := by decide
    have hlen : manyInodes.length = 262144 := rfl
    have hchars : manyInodesLoaded.numBlockChars = 61 := by decide
    unfold manyInodesLoaded at hchars ⊢
    rw [readTables_theirFreeMap _ _ _ (by decide), hchars, hstart, readSuperblock_data,
      readSuperblock_length, manyInodes_data _ (by omega), if_pos (by omega), if_pos (by omega)]
  have hff : ∀ k < 8, (0xff#8).getLsbD k = true := by decide
  unfold Bitmap.busy
  rw [hbyte]
  exact hff _ (Nat.mod_lt b (by decide))

theorem myInodes_manyInodes (i : Nat) : manyInodesLoaded.myInodes i = Dinode.zero := by
  have hzero (k : Nat) : (if k < 400 * dinodeSize ∧ 1024 + k < manyInodes.length then
      manyInodes.data (1024 + k) else 0) = 0 := by
    split
    · rename_i h
      simp only [dinodeSize] at h
      rw [manyInodes_data _ (by omega), if_neg (by omega)]
    · rfl
  have hn : (400 : BitVec 32).toNat = 400 := rfl
  unfold manyInodesLoaded
  rw [readTables_myInodes]
  simp only [readSuperblock_data, readSuperblock_length, hn, hzero]
  rfl

theorem not_marked_manyInodes : ¬ Marked manyInodesLoaded 29 := by
  rintro (h | ⟨i, -, h⟩)
  · exact absurd h (by decide)
  · have hin : (markInodes i (seedMap manyInodesLoaded)).myInodes = manyInodesLoaded.myInodes :=
      (congrArg Globals.myInodes (markInodes_inputs i (seedMap manyInodesLoaded)) :)
    have htyped := h.1
    rw [hin, myInodes_manyInodes] at htyped
    exact absurd htyped (by decide)

/-- Block 29 holds inodes of an image with 400 of them. The walk ends with its
first step and block 29 is written back as free. -/
theorem metadata_freed : load (fun _ => 0) (fun _ => 0) manyInodes = some manyInodesLoaded ∧
    KeepsBusy (metadataEnd manyInodesLoaded) manyInodesLoaded ∧
    ∃ w, (walk (checkFreeMap manyInodesLoaded)).Run [()] w ∧ w.frames = [] ∧
      ¬ KeepsBusy (metadataEnd manyInodesLoaded) w.globals := by
  refine ⟨load_manyInodes, busy_manyInodes, ?_⟩
  obtain ⟨hacc, hfresh⟩ := load_spec load_manyInodes
  have hseek : Seekable manyInodesLoaded := fun i _ => by rw [myInodes_manyInodes]; decide
  have hw := swept_checkFreeMap hfresh hseek
  have hroot : (checkFreeMap manyInodesLoaded).myInodes 1 = Dinode.zero := by
    by_cases hit : Hit manyInodesLoaded 1
    · rw [hw.cleared 1 hit, myInodes_manyInodes]
      rfl
    · rw [hw.alive 1 hit, myInodes_manyInodes]
  let r := enter ROOTINO ROOTINO (checkFreeMap manyInodesLoaded)
  have hleave : r.1.action r.2 = .leave := by
    refine if_neg ?_
    have hp : r.1.parentInum = 1 := rfl
    rw [hp, enter_myInodes, if_neg (by decide), hroot]
    exact Nat.not_lt_zero _
  have hrun := Lib.System.Run.step (l := ()) (.init rfl : (walk (checkFreeMap manyInodesLoaded)).Run []
    (start (checkFreeMap manyInodesLoaded))) (Step.leave r.2 r.1 [] rfl hleave).next
  refine ⟨_, hrun, rfl, fun hk => not_marked_manyInodes ?_⟩
  exact ((kept_of_run hacc hfresh busy_manyInodes hrun).2 hk).1 29
    (show 29 ≤ 53 by decide)

theorem metadata_kept_iff_many :
    KeepsBusy (metadataEnd manyInodesLoaded) (start (checkFreeMap manyInodesLoaded)).globals ↔
      (∀ b ≤ metadataEnd manyInodesLoaded, Marked manyInodesLoaded b) ∧
        ((walk (checkFreeMap manyInodesLoaded)).restrict
          (SparesMetadata (metadataEnd manyInodesLoaded))).Run []
          (start (checkFreeMap manyInodesLoaded)) :=
  metadata_kept_iff load_manyInodes busy_manyInodes (.init rfl)

end PerrOS.Fsck
