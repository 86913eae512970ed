import PerrOS.Fsck.Visit

/-!
# The entries `.` and `..`

Every call sets the first two entries of its buffer, and the buffer is written
back at the end of each turn. On directories that form a tree and share no
blocks no later write undoes this.
-/

namespace PerrOS.Fsck

open Lib Function

-- ---------------------------------------------------------------------------
-- Names
-- ---------------------------------------------------------------------------

/-- Entry `i` of a buffer is for inode `inum`, and `name` is what its name
starts with. -/
structure EntryFor (dir : Memory) (i inum : Nat) (name : List Byte) : Prop where
  inum : inumAt dir i = inum
  name : ∀ k < name.length, dir (direntSize * i + 2 + k) = name.getD k 0

/-- The first two entries of directory `d` with parent `p`. -/
structure HasDots (d p : Nat) (dir : Memory) : Prop where
  self : EntryFor dir 0 d [dot, 0]
  parent : EntryFor dir 1 p [dot, dot, 0]

theorem EntryFor.congr (h : EntryFor dir i e cs) (hs : SameEntry dir' dir i)
    (hn : cs.length ≤ 14) : EntryFor dir' i e cs := by
  refine ⟨hs.inumAt.trans h.inum, fun k hk => ?_⟩
  rw [← h.name k hk, Nat.add_assoc]
  refine hs.byte ?_
  unfold direntSize
  omega

theorem HasDots.congr (h : HasDots d p dir) (hs : ∀ i < 2, SameEntry dir' dir i) :
    HasDots d p dir' :=
  ⟨h.self.congr (hs 0 (by decide)) (by decide), h.parent.congr (hs 1 (by decide)) (by decide)⟩

theorem hasDots_setDots (hd : d < 2 ^ 16) (hp : p < 2 ^ 16) (dir : Memory) :
    HasDots d p (setDots d p dir) := by
  simp only [setDots, setInum, setName, List.zipIdx, List.foldl, direntSize]
  refine ⟨⟨?_, fun k hk => ?_⟩, ⟨?_, fun k hk => ?_⟩⟩
  · unfold inumAt direntSize
    rw [Memory.read_write_disjoint (by omega), Memory.read_update (by omega),
      Memory.read_update (by omega), Memory.read_update (by omega)]
    exact Memory.read_write_of_lt hd
  · have hk : k < 2 := hk
    unfold direntSize
    rw [Memory.write_outside (by omega), update_of_ne (by omega), update_of_ne (by omega),
      update_of_ne (by omega), Memory.write_outside (by omega)]
    obtain rfl | rfl : k = 0 ∨ k = 1 := by omega
    · rw [update_of_ne (by omega)]
      exact update_self ..
    · exact update_self ..
  · exact Memory.read_write_of_lt hp
  · have hk : k < 3 := hk
    unfold direntSize
    rw [Memory.write_outside (by omega)]
    obtain rfl | rfl | rfl : k = 0 ∨ k = 1 ∨ k = 2 := by omega
    · rw [update_of_ne (by omega), update_of_ne (by omega)]
      exact update_self ..
    · rw [update_of_ne (by omega)]
      exact update_self ..
    · exact update_self ..

-- ---------------------------------------------------------------------------
-- The tree of directories
-- ---------------------------------------------------------------------------

namespace Volume

variable (v : Volume)

/-- The directories that the walk enters, each with the one whose entry it is
entered for. The root is its own parent. -/
inductive Parent : Nat → Nat → Prop
  | root : Parent ROOTINO ROOTINO
  | child (p i : Nat) : v.Walked p → v.Seen p i → (v.inode (v.inum p i)).type = T_DIR →
    Parent (v.inum p i) p

/-- The directories form a tree on blocks of their own, and each has its first
block and a size that covers its blocks. -/
structure Restorable (length : Nat) : Prop extends v.OrderlyOn v.Walked length where
  size : ∀ d, v.Walked d → 32 ≤ (v.inode d).size.toNat
  allocated : ∀ d k, v.Walked d → v.block d k ≠ 0 → BSIZE * (k + 1) ≤ (v.inode d).size.toNat
  first : ∀ d, v.Walked d → v.block d 0 ≠ 0

variable {v : Volume}

theorem inum_lt (v : Volume) (d i : Nat) : v.inum d i < 2 ^ 16 := Memory.read_lt ..

theorem Walked.lt (h : v.Walked d) : d < 2 ^ 16 := by
  cases h with
  | root => decide
  | child d i => exact v.inum_lt d i

theorem Parent.walked (h : v.Parent d p) : v.Walked d := by
  cases h with
  | root => exact .root
  | child p i hp hs ht => exact .child p i hp hs ht

theorem Parent.lt (h : v.Parent d p) : p < 2 ^ 16 := by
  cases h with
  | root => decide
  | child p i hp => exact hp.lt

theorem OrderlyOn.parent_unique (ho : v.OrderlyOn D length) (h : v.Parent d p) (hq : v.Parent e q)
    (he : e = d) : q = p := by
  cases h with
  | root =>
    cases hq with
    | root => rfl
    | child q j hw hs ht => exact absurd he (ho.root q j hw hs ht)
  | child p i hp hs ht =>
    cases hq with
    | root => exact absurd he.symm (ho.root p i hp hs ht)
    | child q j hw hs' ht' => exact (ho.once p i q j hp hw hs hs' ht he).1

/-- What the walk makes of a directory `d` with parent `p`: it keeps its
blocks, and of its entries those for inodes of invalid type may be cleared. -/
structure Restored (v v' : Volume) (d p : Nat) : Prop extends SameMap v v' d where
  dots : HasDots d p (v'.content d)
  others : ∀ i, 2 ≤ i → SameEntry (v'.content d) (v.content d) i ∨
    (isInvalidType (v.inode (v.inum d i)) = true ∧ SameEntry (v'.content d) (fun _ => 0) i)

/-- There is no block for an entry past the end of a directory. -/
theorem Restorable.no_block (h : v.Restorable length) (hd : v.Walked d) (hi : v.count d ≤ i) :
    v.block d (i / 32) = 0 := by
  by_contra hne
  have hsize := h.allocated d _ hd hne
  unfold count direntSize at hi
  unfold BSIZE at hsize
  omega

end Volume

-- ---------------------------------------------------------------------------
-- The walk
-- ---------------------------------------------------------------------------

variable {v : Volume} {D : Nat → Prop} {len : Nat} {done done' : Nat → Prop}
variable {cleared cleared' : Nat → Nat → Prop} {s t : Globals} {f f' : Frame} {rest : List Frame}

/-- What the walk has entered has its dots, in a buffer or on disk. -/
structure Dotted (v : Volume) (done : Nat → Prop) (w : Walk) : Prop where
  frames : ∀ f ∈ w.frames, ∃ p, v.Parent f.parentInum p ∧
    HasDots f.parentInum p f.parentDirectory
  left : ∀ d, done d → ∃ p, v.Parent d p ∧ HasDots d p (w.globals.volume.content d)

theorem hasDots_enter (hd : d < 2 ^ 16) (hp : p < 2 ^ 16) (s : Globals) :
    HasDots d p (enter d p s).1.parentDirectory := hasDots_setDots hd hp _

section Step

variable (hd : Dotted v done ⟨s, f :: rest⟩) (h : Visiting v len done cleared ⟨s, f :: rest⟩)
include hd h

/-- A turn that leaves the first two entries of its buffer alone. -/
theorem Dotted.advance (ho : v.OrderlyOn D len)
    (hdata : t.image.data = s.image.data) (hl : t.image.length = s.image.length)
    (hp : f'.parentInum = f.parentInum)
    (hsame : ∀ i < 2, SameEntry f'.parentDirectory f.parentDirectory i)
    (h' : Visiting v len done' cleared' (f'.advance rest t))
    (hdone : ∀ d, done' d → Entered done (f :: rest) d) :
    Dotted v done' (f'.advance rest t) := by
  constructor
  · intro g hg
    obtain rfl | hg := List.mem_cons.mp hg
    · obtain ⟨p, hpar, hdots⟩ := hd.frames f List.mem_cons_self
      dsimp only
      rw [hp]
      exact ⟨p, hpar, hdots.congr hsame⟩
    · exact hd.frames g (List.mem_cons_of_mem _ hg)
  · intro d hd'
    -- `d` is not on the stack
    have hout : d ∉ (f :: rest).map Frame.parentInum := fun hm => by
      refine h'.outside d ?_ hd'
      simp only [Frame.advance, List.map_cons, hp]
      exact hm
    obtain ⟨p, hpar, hdots⟩ := hd.left d ((hdone d hd').resolve_right hout)
    have he : Erased v cleared' t := h'.erased.congr (writeDirectory_myInodes f' t).symm
    have hne : d ≠ f.parentInum := fun heq => hout (by simp [heq])
    have hcontent := h.advance_content ho hdata hl he hp hne (hdone d hd')
    refine ⟨p, hpar, ?_⟩
    dsimp only [Frame.advance]
    rw [hcontent]
    exact hdots

/-- The buffer of a call that returns has been written. -/
theorem Dotted.leave (ho : v.Restorable len) (ha : f.action s = .leave) (a : Access)
    (h' : Visiting v len done' cleared' ⟨s.touch a, rest⟩)
    (hdone : ∀ d, done' d → Entered done (f :: rest) d) : Dotted v done' ⟨s.touch a, rest⟩ := by
  have hscan := h.scanning f List.mem_cons_self
  refine ⟨fun g hg => hd.frames g (List.mem_cons_of_mem _ hg), fun d hd' => ?_⟩
  change ∃ p, v.Parent d p ∧ HasDots d p (s.volume.content d)
  obtain hold | hm := hdone d hd'
  · exact hd.left d hold
  · obtain rfl | hm := List.mem_cons.mp hm
    · obtain ⟨p, hpar, hdots⟩ := hd.frames f List.mem_cons_self
      have hsize := ho.size _ hscan.walked
      have hinode := h.erased.inode ho.toOrderlyOn hscan.walked
      have hi : f.i ≠ 0 := by
        cases Acts.of_eq ha with
        | leave hle =>
          dsimp only at hinode
          rw [hinode] at hle
          unfold direntSize at hle
          omega
      rw [hscan.disk hi]
      refine ⟨p, hpar, hdots.congr fun i hlt => sameEntry_shown ?_ _⟩
      rw [Nat.div_eq_of_lt (by omega)]
      exact ho.first _ hscan.walked
    · exact absurd hd' (h'.outside d hm)

theorem Dotted.descend (ho : v.OrderlyOn D len) (hs : v.Seen f.parentInum f.i)
    (htype : (v.inode (v.inum f.parentInum f.i)).type = T_DIR) (ht : t.volume = s.volume) :
    let r := enter (v.inum f.parentInum f.i) f.parentInum t
    Dotted v done ⟨r.2, r.1 :: { f with called := true } :: rest⟩ := by
  have hwalked := (h.scanning f List.mem_cons_self).walked
  have hpar : v.Parent (v.inum f.parentInum f.i) f.parentInum := .child _ _ hwalked hs htype
  have hne : v.inum f.parentInum f.i ≠ 34 := fun h34 => ho.unpatched (h34 ▸ hpar.walked)
  intro r
  have hvol : r.2.volume = s.volume := (enter_volume hne f.parentInum t).trans ht
  refine ⟨fun g hg => ?_, fun d hd' => ?_⟩
  · obtain rfl | hg := List.mem_cons.mp hg
    · exact ⟨_, hpar, hasDots_enter hpar.walked.lt hpar.lt t⟩
    · obtain rfl | hg := List.mem_cons.mp hg
      · exact hd.frames f List.mem_cons_self
      · exact hd.frames g (List.mem_cons_of_mem _ hg)
  · dsimp only
    rw [hvol]
    exact hd.left d hd'

end Step

theorem Dotted.step {w w' : Walk} (hd : Dotted v done w) (h : Visiting v len done cleared w)
    (ho : v.Restorable len) (hs : Step w w') (h' : Visiting v len done' cleared' w')
    (hdone : ∀ d, done' d → Entered done w.frames d) : Dotted v done' w' := by
  have hon := ho.toOrderlyOn
  cases hs with
  | returned s f rest hc => exact hd.advance h hon rfl rfl rfl (fun _ _ _ _ _ => rfl) h' hdone
  | leave s f rest hc ha => exact hd.leave h ho ha _ h' hdone
  | skip s f rest hc ha => exact hd.advance h hon rfl rfl rfl (fun _ _ _ _ _ => rfl) h' hdone
  | keep s f rest inum hc ha =>
    exact hd.advance h hon rfl rfl rfl (fun _ _ _ _ _ => rfl) h' hdone
  | descend s f rest inum r hc ha hr =>
    cases Acts.of_eq ha with
    | descend hp ht =>
      obtain ⟨hseen, hi⟩ := h.seen_of_picks hon hc hp
      rw [hi] at ht hr
      subst hr
      have hnew := hd.descend h hon hseen (h.erased.type_eq ht)
        (t := (s.touch (.inode f.parentInum)).touch (.inode (v.inum f.parentInum f.i))) rfl
      refine ⟨hnew.frames, fun d hd' => hnew.left d ?_⟩
      refine (hdone d hd').resolve_right fun hm => h'.outside d ?_ hd'
      exact List.mem_cons_of_mem _ hm
  | clear s f rest inum hc ha =>
    cases Acts.of_eq ha with
    | clear hp hv =>
      obtain ⟨hseen, -⟩ := h.seen_of_picks hon hc hp
      have hfile := clearInode_file (inumAt f.parentDirectory f.i)
        ((s.touch (.inode f.parentInum)).touch (.inode (inumAt f.parentDirectory f.i)))
      refine hd.advance h hon (congrArg Prod.fst hfile) (congrArg Prod.snd hfile) rfl
        (fun i hlt => sameEntry_clearEntry ?_ _) h' hdone
      have := hseen.past
      omega

theorem Dotted.run (ho : s.volume.Restorable s.image.length) (hr : (walk s).Run ls w) :
    ∃ done cleared, Visiting s.volume s.image.length done cleared w ∧ Dotted s.volume done w := by
  refine hr.invariant (P := fun _ w => ∃ done cleared,
    Visiting s.volume s.image.length done cleared w ∧ Dotted s.volume done w) ?_ ?_
  · rintro w rfl
    refine ⟨_, _, .start ho.toOrderlyOn, fun f hf => ?_, fun _ => False.elim⟩
    obtain rfl := List.mem_singleton.mp hf
    have hroot : ROOTINO < 2 ^ 16 := by decide
    exact ⟨_, .root, hasDots_enter hroot hroot s⟩
  · rintro _ w _ w' ⟨done, cleared, h, hd⟩ hstep
    have hs := Step.of_next hstep
    obtain ⟨done', cleared', h', hdone⟩ := h.step ho.toOrderlyOn hs
    exact ⟨done', cleared', h', hd.step h ho hs h' hdone⟩

/-- Where no call is under way any more, every directory has been restored. -/
theorem Dotted.restored (hd : Dotted v done ⟨t, []⟩) (h : Visiting v len done cleared ⟨t, []⟩)
    (ho : v.Restorable len) (hp : v.Parent d p) : v.Restored t.volume d p := by
  have hon := ho.toOrderlyOn
  have hdone := h.done_of_walked hp.walked
  have hmap := sameMap_of_intact hon h.erased h.intact (fun _ => h.walked) hp.walked
  have hleft := h.left d hdone
  obtain ⟨q, hq, hdots⟩ := hd.left d hdone
  obtain rfl := hon.parent_unique hp hq rfl
  refine ⟨hmap, hdots, fun i h2 => ?_⟩
  by_cases hlt : i < v.count d
  · have hshow := hleft.shows i h2 hlt
    by_cases hc : cleared d i
    · exact .inr ⟨h.erased.invalid d i hc, hshow.cleared hc⟩
    · exact .inl (hshow.kept hc)
  · -- past the end there is no block
    have hz := ho.no_block hp.walked (Nat.not_lt.mp hlt)
    have hz' : t.volume.block d (i / 32) = 0 := (hmap.block _).trans hz
    exact .inl ((content_of_no_block hz').trans (content_of_no_block hz).symm)

-- The root is in block 30 and its third entry, named `a`, is for directory 2
-- in block 31. All other entries are free, the first two as well.
def bareRoot : Globals where
  image := {
    data o := if o = 15392 then 2 else if o = 15394 then 97 else 0
    length := 262144
    pos := 0 }
  garbage _ := 0
  mySuperblock := ⟨512, 507, 8⟩
  myInodes i :=
    if i = 1 ∨ i = 2 then
      { Dinode.zero with
        type := T_DIR
        size := 512
        addrs := fun k => if k = 0 then BitVec.ofNat 32 (29 + i) else 0 }
    else Dinode.zero
  theirFreeMap _ := 0
  myFreeMap _ := 0
  touched := []

theorem block_bareRoot (hd : d = 1 ∨ d = 2) (k : Nat) :
    bareRoot.volume.block d k = if k = 0 then BitVec.ofNat 32 (29 + d) else 0 := by
  have haddrs (j : Nat) : (bareRoot.volume.inode d).addrs j =
      if j = 0 then BitVec.ofNat 32 (29 + d) else 0 := by
    simp only [bareRoot, Globals.volume, if_pos hd]
  by_cases hk : k < NDIRECT
  · rw [Volume.block_direct _ _ hk, haddrs]
  · have hz : ¬ k = 0 := by
      unfold NDIRECT at hk
      omega
    rw [Volume.block_none _ _ (Nat.not_lt.mp hk) (.inr ?_), if_neg hz]
    rw [haddrs]
    rfl

theorem inum_bareRoot (hd : d = 1 ∨ d = 2) (i : Nat) :
    bareRoot.volume.inum d i = if d = 1 ∧ i = 2 then 2 else 0 := by
  have hcontent (o : Nat) : bareRoot.volume.content d o =
      if d = 1 ∧ o = 32 then 2 else if d = 1 ∧ o = 34 then 97 else 0 := by
    unfold Volume.content
    rw [block_bareRoot hd]
    by_cases ho : o / BSIZE = 0
    · rw [if_pos ho]
      unfold BSIZE at ho
      obtain rfl | rfl := hd
      · rw [if_neg (by decide)]
        have h32 : BSIZE * (BitVec.ofNat 32 (29 + 1)).toNat + o % BSIZE = 15392 ↔ o = 32 := by
          unfold BSIZE
          simp
          omega
        have h34 : BSIZE * (BitVec.ofNat 32 (29 + 1)).toNat + o % BSIZE = 15394 ↔ o = 34 := by
          unfold BSIZE
          simp
          omega
        simp only [bareRoot, Globals.volume, h32, h34, true_and]
      · rw [if_neg (by decide)]
        have h : 15872 ≤ BSIZE * (BitVec.ofNat 32 (29 + 2)).toNat + o % BSIZE := by
          unfold BSIZE
          simp
        simp only [bareRoot, Globals.volume]
        rw [if_neg (by omega), if_neg (by omega), if_neg (by omega), if_neg (by omega)]
    · rw [if_neg ho, if_pos rfl]
      unfold BSIZE at ho
      rw [if_neg (by omega), if_neg (by omega)]
  unfold Volume.inum inumAt direntSize
  simp only [Memory.read, hcontent]
  by_cases h : d = 1 ∧ i = 2
  · obtain ⟨rfl, rfl⟩ := h
    rfl
  · rw [if_neg h, if_neg (by omega), if_neg (by omega), if_neg (by omega), if_neg (by omega)]
    rfl

theorem walked_bareRoot (h : bareRoot.volume.Walked d) : d = 1 ∨ d = 2 := by
  induction h with
  | root => exact .inl rfl
  | child d i _ hs _ ih =>
    have hi := hs.inum
    rw [inum_bareRoot ih] at hi ⊢
    split at hi
    · next h => exact .inr (if_pos h)
    · exact absurd rfl hi

theorem seen_bareRoot (hd : bareRoot.volume.Walked d) (h : bareRoot.volume.Seen d i) :
    d = 1 ∧ i = 2 := by
  have hi := h.inum
  rw [inum_bareRoot (walked_bareRoot hd)] at hi
  by_contra hn
  exact hi (if_neg hn)

theorem holds_bareRoot (hd : d = 1 ∨ d = 2) (h : bareRoot.volume.Holds d b) :
    b = BitVec.ofNat 32 (29 + d) := by
  obtain ⟨hne, rfl | ⟨k, rfl⟩⟩ := h
  · refine absurd ?_ hne
    simp only [bareRoot, Globals.volume, if_pos hd]
    rfl
  · rw [block_bareRoot hd] at hne ⊢
    split
    · rfl
    · next hk => exact absurd (if_neg hk) hne

theorem restorable_bareRoot : bareRoot.volume.Restorable bareRoot.image.length := by
  have hinode (d : Nat) (hd : d = 1 ∨ d = 2) : (bareRoot.volume.inode d).size.toNat = 512 := by
    simp only [bareRoot, Globals.volume, if_pos hd]
    rfl
  refine ⟨⟨fun _ => id, fun d hd => ?_, fun d i d' i' hd hd' hs hs' _ _ => ?_,
    fun d i hd hs _ hroot => ?_, fun h => ?_, fun d b hd hb => ?_, fun d hd => ⟨?_, ?_⟩, ?_⟩,
    fun d hd => ?_, fun d k hd hk => ?_, fun d hd => ?_⟩
  · obtain rfl | rfl := walked_bareRoot hd <;> decide
  · obtain ⟨rfl, rfl⟩ := seen_bareRoot hd hs
    exact seen_bareRoot hd' hs'
  · obtain ⟨rfl, rfl⟩ := seen_bareRoot hd hs
    rw [inum_bareRoot (.inl rfl)] at hroot
    exact absurd hroot (by decide)
  · exact absurd (walked_bareRoot h) (by decide)
  · rw [holds_bareRoot (walked_bareRoot hd) hb]
    obtain rfl | rfl := walked_bareRoot hd <;> exact ⟨by decide, by decide⟩
  · intro k k' hk he
    have hk' := he ▸ hk
    rw [block_bareRoot (walked_bareRoot hd)] at hk hk'
    have h0 : k = 0 := by
      by_contra hn
      exact hk (if_neg hn)
    have h0' : k' = 0 := by
      by_contra hn
      exact hk' (if_neg hn)
    rw [h0, h0']
  · intro k hk he
    refine hk (he.trans ?_)
    simp only [bareRoot, Globals.volume, if_pos (walked_bareRoot hd)]
    rfl
  · intro d d' k hd hd' hne hk hh
    have hb := holds_bareRoot (walked_bareRoot hd) (.of_block hk)
    have hb' := holds_bareRoot (walked_bareRoot hd') hh
    rw [hb] at hb'
    obtain rfl | rfl := walked_bareRoot hd <;> obtain rfl | rfl := walked_bareRoot hd'
    · exact hne rfl
    · exact absurd hb' (by decide)
    · exact absurd hb' (by decide)
    · exact hne rfl
  · rw [hinode d (walked_bareRoot hd)]
    decide
  · rw [hinode d (walked_bareRoot hd)]
    rw [block_bareRoot (walked_bareRoot hd)] at hk
    have h0 : k = 0 := by
      by_contra hn
      exact hk (if_neg hn)
    rw [h0]
    decide
  · rw [block_bareRoot (walked_bareRoot hd), if_pos rfl]
    obtain rfl | rfl := walked_bareRoot hd <;> decide

end PerrOS.Fsck
