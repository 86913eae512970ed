import PerrOS.Fsck.Finish
import PerrOS.Fsck.Visit

/-!
# Dangling entries

Which used entries name an inode without a type once fsck is through. The walk
takes type 0 for a valid one, does not look at names that start with a dot,
and clears an entry of invalid type together with its inode, so that a second
entry for the inode is then one for an inode of type 0.
-/

namespace PerrOS.Fsck

open Lib Function

/-- Every used entry of a reachable directory names an inode with a type. -/
def Volume.NoDangling (v : Volume) : Prop :=
  ∀ d i, v.Reach d → v.Used d i → (v.inode (v.inum d i)).typed = true

/-- The directories below the root form a tree, and their entries and blocks
are those of inodes and data blocks that the image has. -/
structure Tree (s : Globals) : Prop where
  root : (s.myInodes ROOTINO).type = T_DIR
  rootInum : ROOTINO < s.ninodes
  inum : ∀ d i, s.volume.Reach d → s.volume.Used d i → s.volume.inum d i < s.ninodes
  once : ∀ d i d' i' e, s.volume.Reach d → s.volume.Reach d' → s.volume.Child d i e →
    s.volume.Child d' i' e → d' = d ∧ i' = i
  top : ∀ d i, s.volume.Reach d → ¬ s.volume.Child d i ROOTINO
  block : ∀ d b, s.volume.Reach d → s.volume.Holds d b → metadataEnd s < b.toNat ∧
    b.toNat < s.mySuperblock.size.toNat ∧ BSIZE * (b.toNat + 1) ≤ s.image.length

/-- The walk on `v` writes no block that another directory holds, and does not
enter directory 34. -/
structure Undisturbed (v : Volume) : Prop where
  unpatched : ¬ v.Walked 34
  distinct : ∀ d, v.Walked d → v.Distinct d
  unshared : ∀ d d' k, v.Walked d → v.Stays d' → d' ≠ d → v.block d k ≠ 0 →
    ¬ v.Holds d' (v.block d k)

/-- The walk clears entry `i` of `d`: it is the only one that the walk sees
for an inode of invalid type. -/
structure Volume.Cleared (v : Volume) (d i : Nat) : Prop where
  walked : v.Walked d
  seen : v.Seen d i
  invalid : isInvalidType (v.inode (v.inum d i)) = true
  only : ∀ d' i', v.Walked d' → v.Seen d' i' → v.inum d' i' = v.inum d i → d' = d ∧ i' = i

/-- Every entry that is there after the walk names an inode with a type. -/
def Volume.Mended (v : Volume) : Prop :=
  ∀ d i, v.Stays d → v.Listed d i → (v.inode (v.inum d i)).typed = true ∨ v.Cleared d i

-- ---------------------------------------------------------------------------
-- What checkFreeMap leaves
-- ---------------------------------------------------------------------------

/-- Some inodes of `s` have lost their type in `t`. -/
structure Retyped (s t : Globals) : Prop where
  file : t.file = s.file
  super : t.mySuperblock = s.mySuperblock
  inode : ∀ i, t.myInodes i = s.myInodes i ∨ t.myInodes i = { s.myInodes i with type := 0 }

section Retyped

variable {s t : Globals}

theorem Retyped.of_eq (h : Retyped s t) (hf : t'.file = t.file)
    (hs : t'.mySuperblock = t.mySuperblock) (hi : t'.myInodes = t.myInodes) : Retyped s t' :=
  ⟨hf.trans h.file, hs.trans h.super, hi ▸ h.inode⟩

theorem Retyped.destroy (h : Retyped s t) (i : Nat) : Retyped s (t.destroy i) := by
  refine ⟨h.file, h.super, fun k => ?_⟩
  by_cases hk : k = i
  · subst hk
    right
    obtain he | he := h.inode k <;> simp [Globals.destroy, he]
  · simpa [Globals.destroy, update_of_ne hk] using h.inode k

theorem readEntries_file (a : BitVec 32) (s : Globals) : (readEntries a s).2.file = s.file := by
  simp [readEntries, Globals.file]

theorem Retyped.destroyFrom (h : Retyped s t) (a : BitVec 32) (n i : Nat) :
    Retyped s (destroyFrom a n i t) := by
  induction n generalizing i t with
  | zero => exact h
  | succ n ih =>
    have ht : Retyped s (t.touch (.inode i)) := h.of_eq rfl rfl rfl
    have hr (b : BitVec 32) : Retyped s (readEntries b (t.touch (.inode i))).2 :=
      ht.of_eq (readEntries_file ..) rfl rfl
    unfold Fsck.destroyFrom
    dsimp only
    split
    · exact ht.destroy i
    · split
      · exact ht.destroy i
      · split
        · split
          · exact (hr _).destroy i
          · exact ih (hr _) _
        · exact ih ht _

theorem Retyped.compareByte (h : Retyped s t) (i : Nat) : Retyped s (compareByte i t) := by
  unfold Fsck.compareByte
  dsimp only
  split
  · refine loop_invariant (P := fun _ u => Retyped s u) (h.of_eq rfl rfl rfl) fun n u _ hu => ?_
    split
    · exact hu.destroyFrom ..
    · exact hu
  · exact h.of_eq rfl rfl rfl

theorem retyped_checkFreeMap (s : Globals) : Retyped s (checkFreeMap s) := by
  have hin := markInodes_inputs s.ninodes (seedMap s)
  have hmark : Retyped s (markInodes s.ninodes (seedMap s)) := by
    have hf : (markInodes s.ninodes (seedMap s)).file = s.file :=
      (congrArg (fun t : Globals => (t.image.data, t.image.length)) hin :)
    have hi : (markInodes s.ninodes (seedMap s)).myInodes = s.myInodes :=
      (congrArg Globals.myInodes hin :)
    exact ⟨hf, (congrArg Globals.mySuperblock hin :), fun i => .inl (congrFun hi i)⟩
  unfold checkFreeMap
  dsimp only
  exact loop_invariant (P := fun _ u => Retyped s u) hmark fun i u _ hu => hu.compareByte i

variable (h : Retyped s t)
include h

theorem Retyped.sameDir (d : Nat) : s.volume.SameDir t.volume d := by
  have hd : t.image.data = s.image.data := congrArg Prod.fst h.file
  have hi : (t.myInodes d).size = (s.myInodes d).size ∧
      (t.myInodes d).addrs = (s.myInodes d).addrs := by
    obtain he | he := h.inode d <;> rw [he] <;> exact ⟨rfl, rfl⟩
  exact ⟨⟨hi.1, fun j _ => congrFun hi.2 j, fun _ o _ => congrFun hd o⟩, fun _ _ o _ =>
    congrFun hd o⟩

theorem Retyped.inum (d i : Nat) : t.volume.inum d i = s.volume.inum d i := by
  unfold Volume.inum
  rw [(h.sameDir d).content]

theorem Retyped.used (hu : t.volume.Used d i) : s.volume.Used d i := by
  have hc := (h.sameDir d).content
  refine ⟨(h.sameDir d).toSameMap.count ▸ hu.lt, h.inum d i ▸ hu.inum, hc ▸ hu.name⟩

theorem Retyped.directory (ht : (t.myInodes d).type = T_DIR) : (s.myInodes d).type = T_DIR := by
  obtain he | he := h.inode d
  · rwa [he] at ht
  · rw [he] at ht
    exact absurd ht (show (0 : BitVec 16) ≠ T_DIR by decide)

theorem Retyped.reach (hd : t.volume.Stays d) : s.volume.Reach d := by
  induction hd with
  | root => exact .root
  | child d i _ hl ht ih =>
    refine .child d i _ ih ⟨h.used hl.1, (h.inum d i).symm, ?_⟩
    exact h.directory ht

theorem Retyped.child (hu : t.volume.Used d i)
    (ht : (t.volume.inode (t.volume.inum d i)).type = T_DIR) :
    s.volume.Child d i (t.volume.inum d i) :=
  ⟨h.used hu, (h.inum d i).symm, h.directory ht⟩

/-- The walk gets through a tree of directories that share no blocks. -/
theorem Retyped.orderly (hs : Small s) (ht : Tree s) (hu : Undisturbed t.volume) :
    t.volume.Orderly t.image.length := by
  refine ⟨fun d hd => ?_, ?_, ?_, hu.unpatched, fun d b hd hb => ?_, hu.distinct, hu.unshared⟩
  · cases hd with
    | root =>
      obtain he | he := h.inode ROOTINO
      · exact valid_of_directory ((congrArg Dinode.type he).trans ht.root)
      · change isInvalidType (t.myInodes ROOTINO) = false
        rw [he]
        simp [isInvalidType]
    | child d i _ _ ht => exact valid_of_directory ht
  · intro d i d' i' hd hd' hs hs' htype he
    have hc := h.child hs.used htype
    have hc' := h.child hs'.used (by rwa [he])
    rw [he] at hc'
    exact ht.once d i d' i' _ (h.reach hd.stays) (h.reach hd'.stays) hc hc'
  · intro d i hd hs htype he
    have hc := h.child hs.used htype
    rw [he] at hc
    exact ht.top d i (h.reach hd.stays) hc
  · obtain ⟨-, hlt, hlen⟩ := ht.block d b (h.reach hd) ((h.sameDir d).toSameMap.holds.mp hb)
    have hl : t.image.length = s.image.length := congrArg Prod.snd h.file
    refine ⟨by rwa [hl], Nat.lt_of_le_of_lt ?_ hs⟩
    exact Nat.mul_le_mul_left _ (Nat.le_of_lt hlt)

end Retyped

-- ---------------------------------------------------------------------------
-- What the walk leaves
-- ---------------------------------------------------------------------------

/-- What an image shows of the volume that the walk has started on. -/
structure Outcome (v v' : Volume) (cleared : Nat → Nat → Prop) : Prop extends Clears v cleared where
  handled : ∀ d i, v.Walked d → v.Seen d i → isInvalidType (v.inode (v.inum d i)) = true →
    ∃ d' i', cleared d' i' ∧ v.inum d' i' = v.inum d i
  used : ∀ d i, v.Stays d → (v'.Used d i ↔ v.Listed d i ∧ ¬ cleared d i)
  inum : ∀ d i, v.Stays d → v'.Used d i → v'.inum d i = v.inum d i
  kept : ∀ d i, v.Stays d → v.Listed d i → (∀ d' i', cleared d' i' → v.inum d' i' ≠ v.inum d i) →
    (v'.inode (v.inum d i)).type = (v.inode (v.inum d i)).type
  zeroed : ∀ d i, v.Stays d → cleared d i → (v'.inode (v.inum d i)).type = 0

theorem typed_congr {inode inode' : Dinode} (h : inode.type = inode'.type) :
    inode.typed = inode'.typed := by
  unfold Dinode.typed
  rw [h]

theorem untyped_of_zero {inode : Dinode} (h : inode.type = 0) : inode.typed = false := by
  unfold Dinode.typed
  rw [h]
  decide

theorem valid_of_typed {inode : Dinode} (h : inode.typed = true) : isInvalidType inode = false := by
  have hcases : inode.type = 1 ∨ inode.type = 2 ∨ inode.type = 3 := of_decide_eq_true h
  unfold isInvalidType
  rcases hcases with h | h | h <;> rw [h] <;> decide

section Outcome

variable {v v' : Volume} {cleared : Nat → Nat → Prop} (h : Outcome v v' cleared)
include h

/-- No entry for an inode of valid type is cleared. -/
theorem Outcome.kept_of_valid (hd : v.Stays d) (hl : v.Listed d i)
    (hv : isInvalidType (v.inode (v.inum d i)) = false) :
    (v'.inode (v.inum d i)).type = (v.inode (v.inum d i)).type := by
  refine h.kept d i hd hl fun d' i' hc he => ?_
  have hinv := h.invalid d' i' hc
  rw [he, hv] at hinv
  cases hinv

theorem Outcome.not_cleared (hv : isInvalidType (v.inode (v.inum d i)) = false) :
    ¬ cleared d i := fun hc => by
  have hinv := h.invalid d i hc
  rw [hv] at hinv
  cases hinv

theorem Outcome.stays (hd : v'.Reach d) : v.Stays d := by
  induction hd with
  | root => exact .root
  | child d i e _ hc ih =>
    obtain ⟨hl, hnc⟩ := (h.used d i ih).mp hc.used
    obtain rfl : v.inum d i = e := (h.inum d i ih hc.used).symm.trans hc.inum
    refine .child d i ih hl ?_
    by_cases hz : ∃ d' i', cleared d' i' ∧ v.inum d' i' = v.inum d i
    · obtain ⟨d', i', hcl, he⟩ := hz
      have htype := hc.type
      rw [← he, h.zeroed d' i' (h.walked d' i' hcl).stays hcl] at htype
      exact absurd htype (by decide)
    · rw [← h.kept d i ih hl fun d' i' hcl he => hz ⟨d', i', hcl, he⟩]
      exact hc.type

theorem Outcome.reach (hd : v.Stays d) : v'.Reach d := by
  induction hd with
  | root => exact .root
  | child d i hst hl ht ih =>
    have hv := valid_of_directory ht
    have hu := (h.used d i hst).mpr ⟨hl, h.not_cleared hv⟩
    exact .child d i _ ih ⟨hu, h.inum d i hst hu, (h.kept_of_valid hst hl hv).trans ht⟩

theorem Outcome.noDangling_iff : v'.NoDangling ↔ v.Mended := by
  constructor
  · intro hn d i hd hl
    by_cases hc : cleared d i
    · refine .inr ⟨h.walked d i hc, h.seen d i hc, h.invalid d i hc, fun d' i' hw hs he => ?_⟩
      by_contra hne
      -- another entry for the inode is still there, and the inode has no type
      have hnc : ¬ cleared d' i' := fun hc' => hne (h.unique d i d' i' hc hc' he)
      have hu := (h.used d' i' hw.stays).mpr ⟨hs.listed, hnc⟩
      have htyped := hn d' i' (h.reach hw.stays) hu
      rw [h.inum d' i' hw.stays hu, he, untyped_of_zero (h.zeroed d i hd hc)] at htyped
      cases htyped
    · have hu := (h.used d i hd).mpr ⟨hl, hc⟩
      have htyped := hn d i (h.reach hd) hu
      rw [h.inum d i hd hu] at htyped
      refine .inl ?_
      by_cases hz : ∃ d' i', cleared d' i' ∧ v.inum d' i' = v.inum d i
      · obtain ⟨d', i', hcl, he⟩ := hz
        rw [← he, untyped_of_zero (h.zeroed d' i' (h.walked d' i' hcl).stays hcl)] at htyped
        cases htyped
      · rwa [← typed_congr (h.kept d i hd hl fun d' i' hcl he => hz ⟨d', i', hcl, he⟩)]
  · intro hm d i hr hu
    have hd := h.stays hr
    obtain ⟨hl, hnc⟩ := (h.used d i hd).mp hu
    rw [h.inum d i hd hu]
    obtain htyped | hcl := hm d i hd hl
    · rwa [typed_congr (h.kept_of_valid hd hl (valid_of_typed htyped))]
    · obtain ⟨d', i', hc', he⟩ := h.handled d i hcl.walked hcl.seen hcl.invalid
      obtain ⟨rfl, rfl⟩ := hcl.only d' i' (h.walked d' i' hc') (h.seen d' i' hc') he
      exact absurd hc' hnc

end Outcome

section Finished

variable {s t : Globals} {done : Nat → Prop} {cleared : Nat → Nat → Prop} {v : Volume} {len : Nat}

/-- An image that has the directories and the inodes of the end of the walk. -/
theorem Visiting.outcome (h : Visiting v len done cleared ⟨t, []⟩) (ho : v.OrderlyOn v.Stays len)
    (hdir : ∀ d, v.Stays d → t.volume.SameDir v' d)
    (htype : ∀ d i, v.Stays d → v.Listed d i →
      (v'.inode (v.inum d i)).type = (t.myInodes (v.inum d i)).type) :
    Outcome v v' cleared := by
  have hw (d) (hd : Entered done [] d) : v.Walked d := h.walked hd
  have he : Erased v cleared t := h.erased
  have hcount (d) (hd : v.Stays d) : v'.count d = v.count d :=
    (hdir d hd).toSameMap.count.trans (sameMap_of_intact ho he h.intact hw hd).count
  -- an entry in use is as at the start
  have hsame (d i) (hd : v.Stays d) (hu : v'.Used d i) :
      (v.Walked d → 2 ≤ i) ∧ ¬ cleared d i ∧ SameEntry (v'.content d) (v.content d) i := by
    have hlt := hcount d hd ▸ hu.lt
    have hinum := hu.inum
    have hname := hu.name
    unfold Volume.inum at hinum
    rw [(hdir d hd).content] at hinum hname ⊢
    by_cases hwd : v.Walked d
    · have hleft := h.left d (h.done_of_walked hwd)
      have h2 : 2 ≤ i := by
        by_contra hi
        exact (hleft.dots i (by omega) hlt).elim hname hinum
      have hshow := hleft.shows i h2 hlt
      have hnc : ¬ cleared d i := fun hc => hinum (inumAt_of_zero (hshow.cleared hc))
      exact ⟨fun _ => h2, hnc, hshow.kept hnc⟩
    · rw [content_of_intact ho he h.intact hw hd fun hent => hwd (hw d hent)]
      exact ⟨fun hd => absurd hd hwd, fun hc => hwd (he.walked d i hc), fun _ _ _ => rfl⟩
  refine ⟨he.toClears, fun d i hwd hs hv => ?_, fun d i hd => ⟨fun hu => ?_, fun ⟨hl, hnc⟩ => ?_⟩,
    fun d i hd hu => (hsame d i hd hu).2.2.inumAt, fun d i hd hl hn => ?_, fun d i hd hc => ?_⟩
  · exact ((h.left d (h.done_of_walked hwd)).handled i hs).invalid hv
  · obtain ⟨h2, hnc, hentry⟩ := hsame d i hd hu
    refine ⟨⟨⟨hcount d hd ▸ hu.lt, ?_, mt hentry.dots.mpr hu.name⟩, h2⟩, hnc⟩
    exact fun hz => hu.inum (hentry.inumAt.trans hz)
  · have hentry : SameEntry (v'.content d) (v.content d) i := by
      rw [(hdir d hd).content]
      by_cases hwd : v.Walked d
      · exact ((h.left d (h.done_of_walked hwd)).shows i (hl.2 hwd) hl.1.lt).kept hnc
      · rw [content_of_intact ho he h.intact hw hd fun hent => hwd (hw d hent)]
        exact fun _ _ _ => rfl
    refine ⟨(hcount d hd).symm ▸ hl.1.lt, ?_, mt hentry.dots.mp hl.1.name⟩
    exact fun hz => hl.1.inum (hentry.inumAt.symm.trans hz)
  · rw [htype d i hd hl, he.kept _ hn]
  · rw [htype d i hd (he.seen d i hc).listed, he.zeroed d i hc]
    rfl

end Finished

-- ---------------------------------------------------------------------------
-- The whole run
-- ---------------------------------------------------------------------------

section Run

variable {s : Globals} {w : Walk} {ls : List Unit}

theorem super_of_run (hr : (walk s).Run ls w) : w.globals.mySuperblock = s.mySuperblock := by
  refine hr.invariant (P := fun _ w => w.globals.mySuperblock = s.mySuperblock) ?_ ?_
  · rintro w rfl
    have hread (parent : Dinode) (bytes : Nat) (t : Globals) :
        (readDirectory parent bytes t).2.mySuperblock = t.mySuperblock :=
      (congrArg Globals.mySuperblock (readDirectory_memory parent bytes t) :)
    unfold start enter patch
    dsimp only
    split <;> exact hread ..
  · intro _ _ _ _ ih hstep
    exact (Step.of_next hstep).mySuperblock.trans ih

/-- fsck comes to its end, and what it writes back has no dangling entry
exactly when the walk clears all there are. -/
def NoneDanglesIff (s : Globals) (p : Prop) : Prop :=
  (∃ ls w, (walk (checkFreeMap s)).Run ls w ∧ w.frames = []) ∧
    ∀ ls w, (walk (checkFreeMap s)).Run ls w → w.frames = [] →
      ((writeBack w.globals).volume.NoDangling ↔ p)

theorem noneDangles (ha : s.mySuperblock.Accepted) (hs : Small s) (ht : Tree s)
    (hu : Undisturbed (checkFreeMap s).volume) :
    NoneDanglesIff s (checkFreeMap s).volume.Mended := by
  have hre := retyped_checkFreeMap s
  have ho := (hre.orderly hs ht hu).on
  refine ⟨walk_finishes ho, fun ls w hr hf => ?_⟩
  obtain ⟨done, cleared, hv⟩ := Visiting.run ho hr
  obtain ⟨t, frames⟩ := w
  dsimp only at hf ⊢
  subst hf
  have hsuper : t.mySuperblock = s.mySuperblock := (super_of_run hr).trans hre.super
  have hinodes : t.ninodes = s.ninodes := by
    unfold Globals.ninodes
    rw [hsuper]
  have hat : t.mySuperblock.Accepted := hsuper ▸ ha
  have hst : Small t := by
    unfold Small
    rwa [hsuper]
  have hw (d) (hd : Entered done [] d) := hv.walked hd
  have hlen : t.image.length = s.image.length :=
    hv.intact.length.trans (congrArg Prod.snd hre.file)
  have hinum (d i : Nat) (hd : (checkFreeMap s).volume.Stays d)
      (hl : (checkFreeMap s).volume.Listed d i) : (checkFreeMap s).volume.inum d i < t.ninodes := by
    rw [hinodes, hre.inum]
    exact ht.inum d i (hre.reach hd) (hre.used hl.1)
  refine (hv.outcome ho (fun d hd => ?_) fun d i hd hl => ?_).noDangling_iff
  · refine writeBack_sameDir hat hst ?_ fun b hb => ?_
    · cases hd with
      | root => exact hinodes ▸ ht.rootInum
      | child d i hd hl _ => exact hinum d i hd hl
    · have hb' := (sameMap_of_intact ho hv.erased hv.intact hw hd).holds.mp hb
      have hmeta : metadataEnd t = metadataEnd s := by
        unfold metadataEnd
        rw [hinodes, hsuper]
      rw [hmeta, hlen]
      refine ⟨(ht.block d b (hre.reach hd) ((hre.sameDir d).toSameMap.holds.mp hb')).1, ?_⟩
      have hl : (checkFreeMap s).image.length = s.image.length := congrArg Prod.snd hre.file
      exact hl ▸ ho.onDisk d b hd hb'
  · exact (writeBack_inode hat hst (hinum d i hd hl)).1

end Run

-- An image with eight inodes. The root has one block, 30, whose third entry is
-- named `a` and is for the free inode 2.
def freeEntry : Image where
  data o :=
    if 512 ≤ o ∧ o < 524 then Superblock.toBytes ⟨512, 507, 8⟩ (o - 512)
    else if 2048 ≤ o ∧ o < 2560 then 0xff
    else if o = 1088 then 1 else if o = 1096 then 48 else if o = 1100 then 30
    else if o = 15392 then 2 else if o = 15394 then 97 else 0
  length := 262144
  pos := 0

def freeEntryLoaded : Globals :=
  readTables (fun _ => 0) (fun _ => 0) ⟨512, 507, 8⟩ (readSuperblock ⟨0, 0, 0⟩ freeEntry).2

theorem load_freeEntry : load (fun _ => 0) (fun _ => 0) freeEntry = some freeEntryLoaded := by
  refine load_eq (by decide) (fun k hk => ?_) (by decide) (by decide) (by decide) _ _
  have hk : k < 12 := hk
  simp only [freeEntry]
  rw [if_pos ⟨by omega, by omega⟩, Nat.add_sub_cancel_left]

/-- The bytes of the inode table. -/
def freeEntryTable : Memory := fun k =>
  if k = 64 then 1 else if k = 72 then 48 else if k = 76 then 30 else 0

theorem myInodes_freeEntry (i : Nat) :
    freeEntryLoaded.myInodes i = .ofBytes freeEntryTable (dinodeSize * i) := by
  have hbytes : (fun k => if k < 8 * dinodeSize ∧ 1024 + k < freeEntry.length then
      freeEntry.data (1024 + k) else 0) = freeEntryTable := by
    funext k
    unfold freeEntryTable
    by_cases hk : k < 512
    · rw [if_pos ⟨hk, by simp only [freeEntry]; omega⟩]
      simp only [freeEntry]
      rw [if_neg (by omega), if_neg (by omega)]
      simp only [show 1024 + k = 1088 ↔ k = 64 by omega, show 1024 + k = 1096 ↔ k = 72 by omega,
        show 1024 + k = 1100 ↔ k = 76 by omega, show ¬ 1024 + k = 15392 by omega,
        show ¬ 1024 + k = 15394 by omega, if_false]
    · rw [if_neg fun h => hk h.1, if_neg (by omega), if_neg (by omega), if_neg (by omega)]
  have hn : (8 : BitVec 32).toNat = 8 := rfl
  unfold freeEntryLoaded
  rw [readTables_myInodes]
  simp only [readSuperblock_data, readSuperblock_length, hn, hbytes]

theorem block_freeEntry (k : Nat) : freeEntryLoaded.volume.block 1 k = if k = 0 then 30 else 0 := by
  have hinode : freeEntryLoaded.volume.inode 1 = .ofBytes freeEntryTable 64 := myInodes_freeEntry 1
  have haddrs : ∀ j ≤ NDIRECT, (Dinode.ofBytes freeEntryTable 64).addrs j = if j = 0 then 30 else 0 := by
    decide
  by_cases hk : k < NDIRECT
  · rw [Volume.block_direct _ _ hk, hinode, haddrs k (Nat.le_of_lt hk)]
  · have hz : ¬ k = 0 := by
      unfold NDIRECT at hk
      omega
    rw [Volume.block_none _ _ (Nat.not_lt.mp hk) (.inr ?_), if_neg hz]
    rw [hinode, haddrs NDIRECT (le_refl _)]
    decide

theorem content_freeEntry (o : Nat) (ho : o < 512) :
    freeEntryLoaded.volume.content 1 o = if o = 32 then 2 else if o = 34 then 97 else 0 := by
  have hdiv : o / BSIZE = 0 := Nat.div_eq_of_lt ho
  have hmod : o % BSIZE = o := Nat.mod_eq_of_lt ho
  have hdata : freeEntryLoaded.volume.data = freeEntry.data := by
    simp [freeEntryLoaded, Globals.volume, readTables, readSuperblock_data]
  have h30 : BSIZE * (30 : BitVec 32).toNat = 15360 := by decide
  unfold Volume.content
  rw [hdiv, block_freeEntry, if_pos rfl, if_neg (by decide), hdata, h30, hmod]
  simp only [freeEntry]
  rw [if_neg (by omega), if_neg (by omega), if_neg (by omega), if_neg (by omega), if_neg (by omega)]
  simp only [show 15360 + o = 15392 ↔ o = 32 by omega, show 15360 + o = 15394 ↔ o = 34 by omega]

theorem inum_freeEntry (hi : i < 3) :
    freeEntryLoaded.volume.inum 1 i = if i = 2 then 2 else 0 := by
  unfold Volume.inum inumAt
  simp only [Memory.read, direntSize]
  rw [content_freeEntry _ (by omega), content_freeEntry _ (by omega)]
  obtain rfl | rfl | rfl : i = 0 ∨ i = 1 ∨ i = 2 := by omega
  all_goals decide

theorem used_freeEntry : freeEntryLoaded.volume.Used 1 i ↔ i = 2 := by
  have hcount : freeEntryLoaded.volume.count 1 = 3 := by
    have hinode : freeEntryLoaded.volume.inode 1 = .ofBytes freeEntryTable 64 := myInodes_freeEntry 1
    unfold Volume.count
    rw [hinode]
    decide
  constructor
  · intro hu
    have hlt := hu.lt
    have hz := hu.inum
    rw [hcount] at hlt
    rw [inum_freeEntry hlt] at hz
    by_contra hne
    exact hz (if_neg hne)
  · rintro rfl
    refine ⟨by rw [hcount]; decide, by rw [inum_freeEntry (by decide)]; decide, fun hd => ?_⟩
    have hname := hd.nameAt
    unfold nameAt at hname
    rw [content_freeEntry _ (by decide)] at hname
    exact absurd hname (by decide)

theorem type_freeEntry : (freeEntryLoaded.myInodes 2).type = 0 := by
  rw [myInodes_freeEntry]
  decide

theorem child_freeEntry : ¬ freeEntryLoaded.volume.Child 1 i e := by
  intro hc
  obtain rfl := used_freeEntry.mp hc.used
  have hi := hc.inum
  rw [inum_freeEntry (by decide)] at hi
  have ht := hc.type
  rw [← hi] at ht
  exact absurd (type_freeEntry.symm.trans ht) (by decide)

theorem reach_freeEntry (h : freeEntryLoaded.volume.Reach d) : d = 1 := by
  induction h with
  | root => rfl
  | child d i e _ hc ih =>
    subst ih
    exact absurd hc child_freeEntry

theorem holds_freeEntry (h : freeEntryLoaded.volume.Holds 1 b) : b = 30 := by
  obtain ⟨hne, rfl | ⟨k, rfl⟩⟩ := h
  · have hz : (freeEntryLoaded.volume.inode 1).addrs NDIRECT = 0 := by
      rw [show freeEntryLoaded.volume.inode 1 = .ofBytes freeEntryTable 64 from myInodes_freeEntry 1]
      decide
    exact absurd hz hne
  · rw [block_freeEntry] at hne ⊢
    split
    · rfl
    · rename_i hk
      exact absurd (if_neg hk) hne

theorem tree_freeEntry : Tree freeEntryLoaded := by
  refine ⟨?_, by decide, fun d i hd hu => ?_, fun d i d' i' e hd _ hc => ?_, fun d i hd => ?_,
    fun d b hd hb => ?_⟩
  · rw [myInodes_freeEntry]
    decide
  · obtain rfl := reach_freeEntry hd
    obtain rfl := used_freeEntry.mp hu
    rw [inum_freeEntry (by decide)]
    decide
  · obtain rfl := reach_freeEntry hd
    exact absurd hc child_freeEntry
  · obtain rfl := reach_freeEntry hd
    exact child_freeEntry
  · obtain rfl := reach_freeEntry hd
    obtain rfl := holds_freeEntry hb
    decide

theorem undisturbed_freeEntry : Undisturbed (checkFreeMap freeEntryLoaded).volume := by
  have hre := retyped_checkFreeMap freeEntryLoaded
  have hone (d) (hd : (checkFreeMap freeEntryLoaded).volume.Stays d) : d = 1 :=
    reach_freeEntry (hre.reach hd)
  have hmap := (hre.sameDir 1).toSameMap
  refine ⟨fun h => absurd (hone 34 h.stays) (by decide), fun d hd => ?_,
    fun d d' k hd hd' hne => absurd ((hone d' hd').trans (hone d hd.stays).symm) hne⟩
  obtain rfl := hone d hd.stays
  refine hmap.distinct ⟨fun k k' hk he => ?_, fun k _ he => ?_⟩
  · have hk' : freeEntryLoaded.volume.block 1 k' ≠ 0 := he ▸ hk
    rw [block_freeEntry] at hk hk'
    by_contra hne
    by_cases h0 : k = 0
    · exact hk' (if_neg fun h => hne (h0.trans h.symm))
    · exact hk (if_neg h0)
  · have hz : (freeEntryLoaded.volume.inode 1).addrs NDIRECT = 0 := by
      rw [show freeEntryLoaded.volume.inode 1 = .ofBytes freeEntryTable 64 from myInodes_freeEntry 1]
      decide
    exact absurd (he.trans hz) (by assumption)

/-- Inode 2 is free, and type 0 is a valid one for the walk: the entry of the
root is still there. -/
theorem not_mended_freeEntry : ¬ (checkFreeMap freeEntryLoaded).volume.Mended := by
  intro hm
  have hre := retyped_checkFreeMap freeEntryLoaded
  have hinum : (checkFreeMap freeEntryLoaded).volume.inum 1 2 = 2 := by
    rw [hre.inum, inum_freeEntry (by decide)]
    rfl
  have htype : ((checkFreeMap freeEntryLoaded).myInodes 2).type = 0 := by
    obtain he | he := hre.inode 2
    · rw [he, type_freeEntry]
    · rw [he]
  have hused : (checkFreeMap freeEntryLoaded).volume.Used 1 2 := by
    have hu : freeEntryLoaded.volume.Used 1 2 := used_freeEntry.mpr rfl
    have hdir := hre.sameDir 1
    refine ⟨hdir.toSameMap.count.symm ▸ hu.lt, by rw [hinum]; decide, ?_⟩
    rw [hdir.content]
    exact hu.name
  obtain htyped | hcl := hm 1 2 .root ⟨hused, fun _ => le_refl 2⟩
  · rw [hinum] at htyped
    exact Bool.false_ne_true ((untyped_of_zero htype).symm.trans htyped)
  · have hinv := hcl.invalid
    rw [hinum] at hinv
    change isInvalidType ((checkFreeMap freeEntryLoaded).myInodes 2) = true at hinv
    unfold isInvalidType at hinv
    rw [htype] at hinv
    exact absurd hinv (by decide)

theorem small_freeEntry : Small freeEntryLoaded := by
  unfold Small
  decide

end PerrOS.Fsck
