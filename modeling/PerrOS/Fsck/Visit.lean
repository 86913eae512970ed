import PerrOS.Fsck.Termination
import PerrOS.Fsck.Volume

/-!
# What the walk visits

On a volume whose directories form a tree and share no blocks, the walk
enters each directory it can see once and leaves its entries as they were,
except for those it clears. What is cleared is told in terms of the volume
that the walk starts on.
-/

namespace PerrOS.Fsck

open Lib Function

-- ---------------------------------------------------------------------------
-- The entries the walk looks at
-- ---------------------------------------------------------------------------

namespace Volume

variable (v : Volume)

/-- An entry that the walk looks at: the first two are overwritten before it
does, and a name that starts with a dot is skipped. -/
structure Seen (d i : Nat) : Prop where
  past : 2 ≤ i
  lt : i < v.count d
  inum : v.inum d i ≠ 0
  name : nameAt (v.content d) i ≠ dot

/-- The directories that the walk enters. -/
inductive Walked : Nat → Prop
  | root : Walked ROOTINO
  | child (d i : Nat) : Walked d → v.Seen d i → (v.inode (v.inum d i)).type = T_DIR →
    Walked (v.inum d i)

/-- A used entry that is still there after the walk, unless it is cleared:
where the walk comes by, the first two are not. -/
def Listed (d i : Nat) : Prop := v.Used d i ∧ (v.Walked d → 2 ≤ i)

/-- The directories that can be reached by such entries. -/
inductive Stays : Nat → Prop
  | root : Stays ROOTINO
  | child (d i : Nat) : Stays d → v.Listed d i → (v.inode (v.inum d i)).type = T_DIR →
    Stays (v.inum d i)

variable {v}

theorem Seen.used (h : v.Seen d i) : v.Used d i := ⟨h.lt, h.inum, fun hd => h.name hd.nameAt⟩

theorem Seen.listed (h : v.Seen d i) : v.Listed d i := ⟨h.used, fun _ => h.past⟩

theorem Walked.stays (h : v.Walked d) : v.Stays d := by
  induction h with
  | root => exact .root
  | child d i _ hs ht ih => exact .child d i ih hs.listed ht

/-- A volume that the walk gets through without disturbing it: every directory
is named once, none shares a block with one that the walk writes, and
directory 34 is not among them. -/
structure Orderly (v : Volume) (length : Nat) : Prop where
  valid : ∀ d, v.Stays d → isInvalidType (v.inode d) = false
  once : ∀ d i d' i', v.Walked d → v.Walked d' → v.Seen d i → v.Seen d' i' →
    (v.inode (v.inum d i)).type = T_DIR → v.inum d' i' = v.inum d i → d' = d ∧ i' = i
  root : ∀ d i, v.Walked d → v.Seen d i → (v.inode (v.inum d i)).type = T_DIR →
    v.inum d i ≠ ROOTINO
  unpatched : ¬ v.Walked 34
  onDisk : ∀ d b, v.Stays d → v.Holds d b → OnDisk length b
  distinct : ∀ d, v.Walked d → v.Distinct d
  unshared : ∀ d d' k, v.Walked d → v.Stays d' → d' ≠ d → v.block d k ≠ 0 →
    ¬ v.Holds d' (v.block d k)

/-- The same with `D` for the directories that are not to be disturbed. -/
structure OrderlyOn (v : Volume) (D : Nat → Prop) (length : Nat) : Prop where
  covers : ∀ d, v.Walked d → D d
  valid : ∀ d, D d → isInvalidType (v.inode d) = false
  once : ∀ d i d' i', v.Walked d → v.Walked d' → v.Seen d i → v.Seen d' i' →
    (v.inode (v.inum d i)).type = T_DIR → v.inum d' i' = v.inum d i → d' = d ∧ i' = i
  root : ∀ d i, v.Walked d → v.Seen d i → (v.inode (v.inum d i)).type = T_DIR →
    v.inum d i ≠ ROOTINO
  unpatched : ¬ v.Walked 34
  onDisk : ∀ d b, D d → v.Holds d b → OnDisk length b
  distinct : ∀ d, v.Walked d → v.Distinct d
  unshared : ∀ d d' k, v.Walked d → D d' → d' ≠ d → v.block d k ≠ 0 →
    ¬ v.Holds d' (v.block d k)

theorem Orderly.on (h : v.Orderly length) : v.OrderlyOn v.Stays length :=
  ⟨fun _ => Walked.stays, h.valid, h.once, h.root, h.unpatched, h.onDisk, h.distinct, h.unshared⟩

end Volume

-- ---------------------------------------------------------------------------
-- The state of a walk
-- ---------------------------------------------------------------------------

variable {v : Volume} {D : Nat → Prop} {len : Nat} {done done' : Nat → Prop}
  {cleared cleared' : Nat → Nat → Prop}
variable {s t : Globals} {f f' : Frame} {rest : List Frame}

/-- The cleared entries are among those that the walk sees, and each is for
another inode of invalid type. -/
structure Clears (v : Volume) (cleared : Nat → Nat → Prop) : Prop where
  walked : ∀ d i, cleared d i → v.Walked d
  seen : ∀ d i, cleared d i → v.Seen d i
  invalid : ∀ d i, cleared d i → isInvalidType (v.inode (v.inum d i)) = true
  unique : ∀ d i d' i', cleared d i → cleared d' i' → v.inum d' i' = v.inum d i → d' = d ∧ i' = i

/-- The inodes that were zeroed are those of the cleared entries. -/
structure Erased (v : Volume) (cleared : Nat → Nat → Prop) (s : Globals) : Prop
    extends Clears v cleared where
  kept : ∀ e, (∀ d i, cleared d i → v.inum d i ≠ e) → s.myInodes e = v.inode e
  zeroed : ∀ d i, cleared d i → s.myInodes (v.inum d i) = Dinode.zero

/-- Entry `i` of the buffer is what directory `d` started with, or cleared. -/
structure Shows (v : Volume) (cleared : Nat → Nat → Prop) (d : Nat) (dir : Memory) (i : Nat) :
    Prop where
  kept : ¬ cleared d i → SameEntry dir (v.content d) i
  cleared : cleared d i → SameEntry dir (fun _ => 0) i

/-- Entry `i` of `d` is dealt with: its inode has been zeroed if its type was
invalid, and the walk has been through it if it is a directory. -/
structure Handled (v : Volume) (done : Nat → Prop) (cleared : Nat → Nat → Prop) (d i : Nat) :
    Prop where
  invalid : isInvalidType (v.inode (v.inum d i)) = true →
    ∃ d' i', cleared d' i' ∧ v.inum d' i' = v.inum d i
  directory : (v.inode (v.inum d i)).type = T_DIR → done (v.inum d i)

/-- A directory that the walk has left. -/
structure Left (v : Volume) (done : Nat → Prop) (cleared : Nat → Nat → Prop) (s : Globals)
    (d : Nat) : Prop where
  walked : v.Walked d
  dots : ∀ i < 2, i < v.count d → Dots (s.volume.content d) i ∨ s.volume.inum d i = 0
  shows : ∀ i, 2 ≤ i → i < v.count d → Shows v cleared d (s.volume.content d) i
  handled : ∀ i, v.Seen d i → Handled v done cleared d i

/-- A call under way. -/
structure Scanning (v : Volume) (done : Nat → Prop) (cleared : Nat → Nat → Prop) (s : Globals)
    (f : Frame) : Prop where
  walked : v.Walked f.parentInum
  dots : ∀ i < 2, Dots f.parentDirectory i
  shows : ∀ i, 2 ≤ i → Shows v cleared f.parentInum f.parentDirectory i
  disk : f.i ≠ 0 → s.volume.content f.parentInum = v.shown f.parentInum f.parentDirectory
  handled : ∀ i < f.i, v.Seen f.parentInum i → Handled v done cleared f.parentInum i

/-- The call that a frame has made is for a directory. -/
structure Calls (v : Volume) (f : Frame) (e : Nat) : Prop where
  called : f.called = true
  seen : v.Seen f.parentInum f.i
  inum : v.inum f.parentInum f.i = e
  type : (v.inode e).type = T_DIR

/-- The frames below a call for `e`: each has called for the directory of the
next, from the root on. -/
def Under (v : Volume) (e : Nat) : List Frame → Prop
  | [] => e = ROOTINO
  | f :: rest => Calls v f e ∧ Under v f.parentInum rest

/-- The stack: the call that the innermost frame has made is over. -/
def Chain (v : Volume) (done : Nat → Prop) : List Frame → Prop
  | [] => done ROOTINO
  | f :: rest => (f.called = true → ∃ e, Calls v f e ∧ done e) ∧ Under v f.parentInum rest

/-- The walk has dealt with entry `i` of `d` or is inside the call for it. -/
def Passed (done : Nat → Prop) (frames : List Frame) (d i : Nat) : Prop :=
  done d ∨ ∃ f ∈ frames, f.parentInum = d ∧ (i < f.i ∨ (f.called = true ∧ i = f.i))

/-- The walk has entered `d`. -/
def Entered (done : Nat → Prop) (frames : List Frame) (d : Nat) : Prop :=
  done d ∨ d ∈ frames.map Frame.parentInum

/-- The disk is as at the start but for the blocks of the directories that the
walk has entered. -/
structure Intact (v : Volume) (len : Nat) (entered : Nat → Prop) (s : Globals) : Prop where
  length : s.image.length = len
  data : ∀ o < len, (∀ d k, entered d → v.block d k ≠ 0 → ¬ InBlock (v.block d k) o) →
    s.image.data o = v.data o

/-- What holds of a walk at any time. -/
structure Visiting (v : Volume) (len : Nat) (done : Nat → Prop) (cleared : Nat → Nat → Prop)
    (w : Walk) : Prop where
  erased : Erased v cleared w.globals
  intact : Intact v len (Entered done w.frames) w.globals
  left : ∀ d, done d → Left v done cleared w.globals d
  scanning : ∀ f ∈ w.frames, Scanning v done cleared w.globals f
  nodup : (w.frames.map Frame.parentInum).Nodup
  outside : ∀ d ∈ w.frames.map Frame.parentInum, ¬ done d
  chain : Chain v done w.frames
  cleared : ∀ d i, cleared d i → Passed done w.frames d i
  named : ∀ e, Entered done w.frames e → e ≠ ROOTINO →
    ∃ d i, v.Walked d ∧ v.Seen d i ∧ v.inum d i = e ∧ Passed done w.frames d i

-- ---------------------------------------------------------------------------
-- Directories on disk
-- ---------------------------------------------------------------------------

section Disk

variable {entered : Nat → Prop}

theorem Erased.inode (h : Erased v cleared s) (ho : v.OrderlyOn D len) (hd : D d) :
    s.myInodes d = v.inode d := by
  refine h.kept d fun d' i hc he => ?_
  have hv := h.invalid d' i hc
  rw [he, ho.valid d hd] at hv
  cases hv

theorem Erased.congr (h : Erased v cleared s) (hi : t.myInodes = s.myInodes) :
    Erased v cleared t :=
  ⟨h.toClears, hi ▸ h.kept, hi ▸ h.zeroed⟩

theorem Intact.congr (h : Intact v len entered s) (hd : t.image.data = s.image.data)
    (hl : t.image.length = s.image.length) : Intact v len entered t :=
  ⟨hl.trans h.length, by rw [hd]; exact h.data⟩

section Orderly

variable (ho : v.OrderlyOn D len) (he : Erased v cleared s) (hi : Intact v len entered s)
variable (hw : ∀ d, entered d → v.Walked d)
include ho he hi hw

theorem sameMap_of_intact (hd : D d) : v.SameMap s.volume d := by
  refine ⟨congrArg Dinode.size (he.inode ho hd), fun j _ => congrArg (·.addrs j) (he.inode ho hd),
    fun ha o hin => ?_⟩
  have hholds : v.Holds d _ := .of_indirect ha
  refine hi.data o ((ho.onDisk d _ hd hholds).lt_length hin) fun d' k hent hk hb => ?_
  have heq := hb.eq hin
  by_cases hdd : d' = d
  · subst hdd
    exact (ho.distinct d' (hw d' hent)).indirect k hk heq
  · exact ho.unshared d' d k (hw d' hent) hd (Ne.symm hdd) hk (heq ▸ hholds)

/-- A directory that the walk has not entered is as at the start. -/
theorem content_of_intact (hd : D d) (hn : ¬ entered d) :
    s.volume.content d = v.content d := by
  refine Volume.SameDir.content ⟨sameMap_of_intact ho he hi hw hd, fun k hk o hin => ?_⟩
  refine hi.data o ((ho.onDisk d _ hd (.of_block hk)).lt_length hin) fun d' k' hent hk' hb => ?_
  refine ho.unshared d' d k' (hw d' hent) hd (fun h => hn (h ▸ hent)) hk' ?_
  exact hb.eq hin ▸ .of_block hk

theorem reads_of_intact (hd : D d) : Reads s d := by
  intro b hb
  rw [hi.length]
  exact ho.onDisk d b hd ((sameMap_of_intact ho he hi hw hd).holds.mp hb)

theorem distinct_of_intact (hd : v.Walked d) : s.volume.Distinct d :=
  (sameMap_of_intact ho he hi hw (ho.covers _ hd)).distinct (ho.distinct d hd)

end Orderly

theorem Visiting.walked {w : Walk} (h : Visiting v len done cleared w)
    (hd : Entered done w.frames d) : v.Walked d := by
  obtain hd | hd := hd
  · exact (h.left d hd).walked
  · obtain ⟨f, hf, rfl⟩ := List.mem_map.mp hd
    exact (h.scanning f hf).walked

end Disk

-- ---------------------------------------------------------------------------
-- What one directory's turn leaves of the others
-- ---------------------------------------------------------------------------

theorem Shows.congr (h : Shows v cleared d dir i) (hc : cleared' d i ↔ cleared d i) :
    Shows v cleared' d dir i :=
  ⟨fun hn => h.kept (mt hc.mpr hn), fun hy => h.cleared (hc.mp hy)⟩

theorem Handled.mono (h : Handled v done cleared d i) (hd : ∀ e, done e → done' e)
    (hc : ∀ d i, cleared d i → cleared' d i) : Handled v done' cleared' d i := by
  refine ⟨fun hv => ?_, fun ht => hd _ (h.directory ht)⟩
  obtain ⟨d', i', hcl, he⟩ := h.invalid hv
  exact ⟨d', i', hc _ _ hcl, he⟩

theorem Left.mono (h : Left v done cleared s d) (ht : t.volume.content d = s.volume.content d)
    (heq : ∀ i, cleared' d i ↔ cleared d i) (hd : ∀ e, done e → done' e)
    (hc : ∀ d i, cleared d i → cleared' d i) : Left v done' cleared' t d := by
  refine ⟨h.walked, ?_, ?_, fun i hi => (h.handled i hi).mono hd hc⟩
  · unfold Volume.inum
    rw [ht]
    exact h.dots
  · rw [ht]
    exact fun i h2 hlt => (h.shows i h2 hlt).congr (heq i)

theorem Scanning.mono (h : Scanning v done cleared s f)
    (ht : t.volume.content f.parentInum = s.volume.content f.parentInum)
    (heq : ∀ i, cleared' f.parentInum i ↔ cleared f.parentInum i) (hd : ∀ e, done e → done' e)
    (hc : ∀ d i, cleared d i → cleared' d i) : Scanning v done' cleared' t f := by
  refine ⟨h.walked, h.dots, fun i h2 => (h.shows i h2).congr (heq i), ?_,
    fun i hi hs => (h.handled i hi hs).mono hd hc⟩
  rw [ht]
  exact h.disk

theorem Passed.advance (h : Passed done (f :: rest) d i) (hp : f'.parentInum = f.parentInum)
    (hi : f'.i = f.i + 1) : Passed done (f' :: rest) d i := by
  obtain h | ⟨g, hg, hd, hpos⟩ := h
  · exact .inl h
  · obtain rfl | hg := List.mem_cons.mp hg
    · exact .inr ⟨f', List.mem_cons_self, hp.trans hd, .inl (by omega)⟩
    · exact .inr ⟨g, List.mem_cons_of_mem _ hg, hd, hpos⟩

/-- The end of a turn leaves the other directories as they were. -/
theorem Visiting.advance_content (h : Visiting v len done cleared ⟨s, f :: rest⟩)
    (ho : v.OrderlyOn D len) (hd : t.image.data = s.image.data)
    (hl : t.image.length = s.image.length) (he : Erased v cleared' t)
    (hp : f'.parentInum = f.parentInum) (hne : e ≠ f.parentInum)
    (hent : Entered done (f :: rest) e) :
    (writeDirectory f' t).volume.content e = s.volume.content e := by
  have hw (d) (hd : Entered done (f :: rest) d) : v.Walked d := h.walked hd
  have hwalked : v.Walked f.parentInum := hw _ (.inr (by simp))
  have hin := h.intact.congr hd hl
  have hD := ho.covers _ (hw e hent)
  have hmap := sameMap_of_intact ho he hin hw (ho.covers _ hwalked)
  have hmape := sameMap_of_intact ho he hin hw hD
  have hwritten := written_writeDirectory (f := f') (s := t)
    (by rw [hp]; exact reads_of_intact ho he hin hw (ho.covers _ hwalked))
    (by rw [hp]; exact distinct_of_intact ho he hin hw hwalked)
  rw [hp] at hwritten
  have hsame := hwritten.sameDir (congrFun (writeDirectory_myInodes f' t) e)
    (reads_of_intact ho he hin hw hD) fun k hk hh => by
      rw [hmap.block] at hk hh
      exact ho.unshared _ e k hwalked hD hne hk (hmape.holds.mp hh)
  have hinode : t.volume.inode e = s.volume.inode e :=
    (he.inode ho hD).trans (h.erased.inode ho hD).symm
  rw [hsame.content]
  refine Volume.SameDir.content ⟨⟨by rw [hinode], fun j _ => by rw [hinode], fun _ o _ => ?_⟩,
    fun _ _ o _ => ?_⟩
  · exact congrFun hd o
  · exact congrFun hd o

/-- The end of a turn. -/
theorem Visiting.advance (h : Visiting v len done cleared ⟨s, f :: rest⟩) (ho : v.OrderlyOn D len)
    (hd : t.image.data = s.image.data) (hl : t.image.length = s.image.length)
    (he : Erased v cleared' t) (hc : ∀ d i, cleared d i → cleared' d i)
    (hnew : ∀ d i, cleared' d i → cleared d i ∨ (d = f.parentInum ∧ i = f.i))
    (hp : f'.parentInum = f.parentInum) (hi : f'.i = f.i)
    (hdots : ∀ i < 2, Dots f'.parentDirectory i)
    (hshows : ∀ i, 2 ≤ i → Shows v cleared' f.parentInum f'.parentDirectory i)
    (hh : v.Seen f.parentInum f.i → Handled v done cleared' f.parentInum f.i) :
    Visiting v len done cleared' (f'.advance rest t) := by
  have hw (d) (hd : Entered done (f :: rest) d) : v.Walked d := h.walked hd
  have hself : Entered done (f :: rest) f.parentInum := .inr (by simp)
  have hwalked := hw _ hself
  have hin := h.intact.congr hd hl
  have hmap := sameMap_of_intact ho he hin hw (ho.covers _ hwalked)
  have hwritten := written_writeDirectory (f := f') (s := t)
    (by rw [hp]; exact reads_of_intact ho he hin hw (ho.covers _ hwalked))
    (by rw [hp]; exact distinct_of_intact ho he hin hw hwalked)
  have hinodes := writeDirectory_myInodes f' t
  rw [hp] at hwritten
  have hother (e : Nat) (hne : e ≠ f.parentInum) (hent : Entered done (f :: rest) e) :
      (writeDirectory f' t).volume.content e = s.volume.content e :=
    h.advance_content ho hd hl he hp hne hent
  have heq (e : Nat) (hne : e ≠ f.parentInum) (i : Nat) : cleared' e i ↔ cleared e i :=
    ⟨fun hy => (hnew e i hy).resolve_right fun h => hne h.1, hc e i⟩
  have hnodup := h.nodup
  have hent (e : Nat) : Entered done ({ f' with i := f'.i + 1, called := false } :: rest) e ↔
      Entered done (f :: rest) e := by
    simp only [Entered, List.map_cons, hp]
  rw [List.map_cons, List.nodup_cons] at hnodup
  have hne {e : Nat} (h : e ∈ rest.map Frame.parentInum) : e ≠ f.parentInum :=
    fun heq => hnodup.1 (heq ▸ h)
  refine ⟨he.congr hinodes, ⟨hwritten.length.trans hin.length, fun o ho' hout => ?_⟩, ?_, ?_, ?_,
    ?_, ?_, ?_, ?_⟩
  · -- the blocks of this directory are among those excepted
    have hout' (d k) (hd : Entered done (f :: rest) d) := hout d k ((hent d).mpr hd)
    refine (hwritten.outside o (hin.length ▸ ho') ?_).trans (hin.data o ho' hout')
    intro k _ _ hk
    rw [hmap.block] at hk ⊢
    exact hout' _ k hself hk
  · intro e hdone
    have hne : e ≠ f.parentInum := fun heq => h.outside _ (by simp) (heq ▸ hdone)
    exact (h.left e hdone).mono (hother e hne (.inl hdone)) (heq e hne) (fun _ => id) hc
  · intro g hg
    obtain rfl | hg := List.mem_cons.mp hg
    · have hf := h.scanning f List.mem_cons_self
      refine ⟨hp ▸ hwalked, hdots, fun i h2 => hp ▸ hshows i h2, fun _ => ?_, fun i hlt hs => ?_⟩
      · have hcontent := hwritten.content (congrFun hinodes _)
          (reads_of_intact ho he hin hw (ho.covers _ hwalked)) (distinct_of_intact ho he hin hw hwalked)
        dsimp only
        rw [hp]
        refine hcontent.trans ?_
        funext o
        unfold Volume.shown
        rw [hmap.block]
      · dsimp only at hs hlt ⊢
        rw [hp] at hs ⊢
        rw [hi] at hlt
        obtain hlt | rfl := Nat.lt_succ_iff_lt_or_eq.mp hlt
        · exact (hf.handled i hlt hs).mono (fun _ => id) hc
        · exact hh hs
    · have hmem := List.mem_map_of_mem (f := Frame.parentInum) hg
      exact (h.scanning g (List.mem_cons_of_mem _ hg)).mono
        (hother _ (hne hmem) (.inr (List.mem_cons_of_mem _ hmem))) (heq _ (hne hmem))
        (fun _ => id) hc
  · simp only [Frame.advance, List.map_cons, hp]
    exact h.nodup
  · simp only [Frame.advance, List.map_cons, hp]
    exact h.outside
  · refine ⟨fun hf => absurd hf Bool.false_ne_true, ?_⟩
    dsimp only
    rw [hp]
    exact h.chain.2
  · intro d i hcl
    obtain hold | ⟨rfl, rfl⟩ := hnew d i hcl
    · exact (h.cleared d i hold).advance hp (congrArg (· + 1) hi)
    · exact .inr ⟨_, List.mem_cons_self, hp, .inl (by dsimp only; omega)⟩
  · intro e hent' hroot
    obtain ⟨d, i, hwd, hs, he', hpass⟩ := h.named e ((hent e).mp hent') hroot
    exact ⟨d, i, hwd, hs, he', hpass.advance hp (congrArg (· + 1) hi)⟩

-- ---------------------------------------------------------------------------
-- Leaving a directory
-- ---------------------------------------------------------------------------

theorem block_of_entry (hl : direntSize * i ≤ o) (hh : o < direntSize * (i + 1)) :
    o / BSIZE = i / 32 := by
  unfold direntSize BSIZE at *
  omega

theorem sameEntry_shown (h : v.block d (i / 32) ≠ 0) (dir : Memory) :
    SameEntry (v.shown d dir) dir i :=
  fun o hl hh => if_neg (by rwa [block_of_entry hl hh])

/-- An entry that a directory has no block for is free. -/
theorem content_of_no_block (h : v.block d (i / 32) = 0) :
    SameEntry (v.content d) (fun _ => 0) i :=
  fun o hl hh => if_pos (by rw [block_of_entry hl hh, h])

/-- A directory shows an entry as it is in the buffer, or not at all where it
has no block for it. -/
theorem shown_entry (v : Volume) (d : Nat) (dir : Memory) (i : Nat) :
    SameEntry (v.shown d dir) dir i ∨
      (SameEntry (v.shown d dir) (fun _ => 0) i ∧ SameEntry (v.content d) (fun _ => 0) i) := by
  by_cases hz : v.block d (i / 32) = 0
  · exact .inr ⟨fun o hl hh => if_pos (by rw [block_of_entry hl hh, hz]), content_of_no_block hz⟩
  · exact .inl (sameEntry_shown hz dir)

theorem Shows.shown (h : Shows v cleared d dir i) : Shows v cleared d (v.shown d dir) i := by
  obtain hs | ⟨hz, hz'⟩ := shown_entry v d dir i
  · exact ⟨fun hn => hs.trans (h.kept hn), fun hy => hs.trans (h.cleared hy)⟩
  · exact ⟨fun _ => hz.trans hz'.symm, fun _ => hz⟩

theorem Visiting.leave (h : Visiting v len done cleared ⟨s, f :: rest⟩) (ho : v.OrderlyOn D len)
    (hf : f.called = false) (ha : f.action s = .leave) (a : Access) :
    Visiting v len (fun d => done d ∨ d = f.parentInum) cleared ⟨s.touch a, rest⟩ := by
  have hscan := h.scanning f List.mem_cons_self
  have hinode : s.myInodes f.parentInum = v.inode f.parentInum :=
    h.erased.inode ho (ho.covers _ hscan.walked)
  have hcount : v.count f.parentInum ≤ f.i := by
    cases Acts.of_eq ha with
    | leave hle => rwa [hinode] at hle
  have hmono (e : Nat) (he : done e) : done e ∨ e = f.parentInum := .inl he
  have hent (e : Nat) : Entered (fun d => done d ∨ d = f.parentInum) rest e ↔
      Entered done (f :: rest) e := by
    simp only [Entered, List.map_cons, List.mem_cons, or_assoc]
  have hpass {d i : Nat} (hp : Passed done (f :: rest) d i) :
      Passed (fun d => done d ∨ d = f.parentInum) rest d i := by
    obtain hd | ⟨g, hg, hd, hpos⟩ := hp
    · exact .inl (.inl hd)
    · obtain rfl | hg := List.mem_cons.mp hg
      · exact .inl (.inr hd.symm)
      · exact .inr ⟨g, hg, hd, hpos⟩
  have hnodup := h.nodup
  rw [List.map_cons, List.nodup_cons] at hnodup
  refine ⟨h.erased.congr rfl, ⟨h.intact.length, fun o hlt hout => ?_⟩, ?_, ?_, hnodup.2, ?_, ?_,
    fun d i hc => hpass (h.cleared d i hc), ?_⟩
  · exact h.intact.data o hlt fun d k he => hout d k ((hent d).mpr he)
  · rintro e (hdone | rfl)
    · exact (h.left e hdone).mono rfl (fun _ => Iff.rfl) hmono fun _ _ => id
    · -- an entry below the count has been reached, so the buffer has been written
      have hdisk (i : Nat) (hlt : i < v.count f.parentInum) := hscan.disk (by omega)
      refine ⟨hscan.walked, fun i h2 hlt => ?_, fun i h2 hlt => ?_, fun i hs => ?_⟩
      · change Dots (s.volume.content f.parentInum) i ∨ inumAt (s.volume.content f.parentInum) i = 0
        rw [hdisk i hlt]
        obtain hsame | ⟨hz, -⟩ := shown_entry v f.parentInum f.parentDirectory i
        · exact .inl (hsame.dots.mpr (hscan.dots i h2))
        · exact .inr (inumAt_of_zero hz)
      · change Shows v cleared f.parentInum (s.volume.content f.parentInum) i
        rw [hdisk i hlt]
        exact (hscan.shows i h2).shown
      · exact (hscan.handled i (Nat.lt_of_lt_of_le hs.lt hcount) hs).mono hmono fun _ _ => id
  · intro g hg
    exact (h.scanning g (List.mem_cons_of_mem _ hg)).mono rfl (fun _ => Iff.rfl) hmono fun _ _ => id
  · rintro d hd (hdone | rfl)
    · exact h.outside d (List.mem_cons_of_mem _ hd) hdone
    · exact hnodup.1 hd
  · have hunder := h.chain.2
    cases rest with
    | nil => exact .inr hunder.symm
    | cons g rest => exact ⟨fun _ => ⟨_, hunder.1, .inr rfl⟩, hunder.2⟩
  · intro e he hroot
    obtain ⟨d, i, hw, hs, hin, hp⟩ := h.named e ((hent e).mp he) hroot
    exact ⟨d, i, hw, hs, hin, hpass hp⟩

-- ---------------------------------------------------------------------------
-- Entering a directory
-- ---------------------------------------------------------------------------

/-- The walk has not passed the entry that it is at. -/
theorem Visiting.not_passed (h : Visiting v len done cleared ⟨s, f :: rest⟩)
    (hf : f.called = false) : ¬ Passed done (f :: rest) f.parentInum f.i := by
  have hnodup := h.nodup
  rw [List.map_cons, List.nodup_cons] at hnodup
  rintro (hd | ⟨g, hg, hp, hpos⟩)
  · exact h.outside f.parentInum (by simp) hd
  · obtain rfl | hg := List.mem_cons.mp hg
    · obtain hlt | ⟨hc, -⟩ := hpos
      · exact Nat.lt_irrefl _ hlt
      · rw [hf] at hc
        cases hc
    · exact hnodup.1 (hp ▸ List.mem_map_of_mem hg)

/-- A frame for a directory that the walk has not entered before. -/
theorem Scanning.enter (hp : p ≠ 34) (hw : v.Walked p) (hr : Reads s p)
    (hcontent : s.volume.content p = v.content p) (hc : ∀ i, ¬ cleared p i) (g : Nat) :
    Scanning v done cleared t (enter p g s).1 := by
  have hdir := enter_parentDirectory hp hr g
  refine ⟨hw, fun i h2 => ?_, fun i h2 => ⟨fun _ => ?_, fun h => absurd h (hc i)⟩,
    fun h => absurd rfl h, fun i h => absurd h (Nat.not_lt_zero i)⟩
  · rw [hdir]
    exact dots_setDots h2 ..
  · rw [hdir, hcontent]
    exact sameEntry_setDots h2 p g _

/-- The directory of an entry that the walk has not passed is new to it: no
other entry names it. -/
theorem Visiting.not_entered (h : Visiting v len done cleared ⟨s, f :: rest⟩)
    (ho : v.OrderlyOn D len) (hf : f.called = false) (hs : v.Seen f.parentInum f.i)
    (htype : (v.inode (v.inum f.parentInum f.i)).type = T_DIR) :
    ¬ Entered done (f :: rest) (v.inum f.parentInum f.i) := by
  have hwalked := (h.scanning f List.mem_cons_self).walked
  intro hent
  obtain ⟨d, i, hwd, hsd, hin, hpass⟩ := h.named _ hent (ho.root _ _ hwalked hs htype)
  obtain ⟨rfl, rfl⟩ := ho.once _ _ d i hwalked hwd hs hsd htype hin
  exact h.not_passed hf hpass

theorem Visiting.descend (h : Visiting v len done cleared ⟨s, f :: rest⟩) (ho : v.OrderlyOn D len)
    (hf : f.called = false) (hs : v.Seen f.parentInum f.i)
    (htype : (v.inode (v.inum f.parentInum f.i)).type = T_DIR) (ht : t.volume = s.volume)
    (hl : t.image.length = s.image.length) :
    let r := enter (v.inum f.parentInum f.i) f.parentInum t
    Visiting v len done cleared ⟨r.2, r.1 :: { f with called := true } :: rest⟩ := by
  have hscan := h.scanning f List.mem_cons_self
  have hwalked : v.Walked (v.inum f.parentInum f.i) := .child _ _ hscan.walked hs htype
  have hne : v.inum f.parentInum f.i ≠ 34 := fun h34 => ho.unpatched (h34 ▸ hwalked)
  have hnew := h.not_entered ho hf hs htype
  intro r
  have hvol : r.2.volume = s.volume := (enter_volume hne f.parentInum t).trans ht
  have hlen : r.2.image.length = s.image.length :=
    (congrArg Prod.snd (enter_file hne f.parentInum t)).trans hl
  have hin : t.myInodes = s.myInodes := congrArg Volume.inode ht
  have hsub {e : Nat} (he : Entered done (f :: rest) e) :
      Entered done (r.1 :: { f with called := true } :: rest) e :=
    he.imp id fun hm => by
      simp only [List.map_cons, List.mem_cons] at hm ⊢
      exact .inr hm
  have hpass {d i : Nat} (hp : Passed done (f :: rest) d i) :
      Passed done (r.1 :: { f with called := true } :: rest) d i := by
    obtain hd | ⟨g, hg, hd, hpos⟩ := hp
    · exact .inl hd
    · obtain rfl | hg := List.mem_cons.mp hg
      · refine .inr ⟨_, List.mem_cons_of_mem _ List.mem_cons_self, hd, .inl ?_⟩
        exact hpos.elim id fun hc => absurd hc.1 (by simp [hf])
      · exact .inr ⟨g, List.mem_cons_of_mem _ (List.mem_cons_of_mem _ hg), hd, hpos⟩
  have hpc : Passed done (r.1 :: { f with called := true } :: rest) f.parentInum f.i :=
    .inr ⟨_, List.mem_cons_of_mem _ List.mem_cons_self, rfl, .inr ⟨rfl, rfl⟩⟩
  have hcleared (i : Nat) : ¬ cleared (v.inum f.parentInum f.i) i := fun hc => by
    obtain hd | ⟨g, hg, hd, -⟩ := h.cleared _ i hc
    · exact hnew (.inl hd)
    · exact hnew (.inr (hd ▸ List.mem_map_of_mem hg))
  have hit : Intact v len (Entered done (f :: rest)) t :=
    h.intact.congr (congrArg Volume.data ht) hl
  have het : Erased v cleared t := h.erased.congr hin
  have hw (d) (hd : Entered done (f :: rest) d) : v.Walked d := h.walked hd
  refine ⟨h.erased.congr (congrArg Volume.inode hvol), ⟨hlen.trans h.intact.length,
    fun o hlt hout => ?_⟩, ?_, ?_, ?_, ?_, ⟨fun hc => absurd hc Bool.false_ne_true,
    ⟨rfl, hs, rfl, htype⟩, h.chain.2⟩, fun d i hc => hpass (h.cleared d i hc), ?_⟩
  · have hd : r.2.image.data = s.image.data := congrArg Volume.data hvol
    dsimp only
    rw [hd]
    exact h.intact.data o hlt fun d k he => hout d k (hsub he)
  · intro e hdone
    exact (h.left e hdone).mono (congrArg (Volume.content · e) hvol) (fun _ => Iff.rfl) (fun _ => id)
      fun _ _ => id
  · intro g hg
    obtain rfl | hg := List.mem_cons.mp hg
    · exact .enter hne hwalked (reads_of_intact ho het hit hw (ho.covers _ hwalked))
        (content_of_intact ho het hit hw (ho.covers _ hwalked) hnew) hcleared _
    · have hmono (g : Frame) (hg : g ∈ f :: rest) : Scanning v done cleared r.2 g :=
        (h.scanning g hg).mono (congrArg (Volume.content · g.parentInum) hvol) (fun _ => Iff.rfl)
          (fun _ => id) fun _ _ => id
      obtain rfl | hg := List.mem_cons.mp hg
      · have := hmono f List.mem_cons_self
        exact ⟨this.walked, this.dots, this.shows, this.disk, this.handled⟩
      · exact hmono g (List.mem_cons_of_mem _ hg)
  · exact List.nodup_cons.mpr ⟨fun hm => hnew (.inr hm), h.nodup⟩
  · intro d hd
    obtain rfl | hd := List.mem_cons.mp hd
    · exact fun hdone => hnew (.inl hdone)
    · exact h.outside d hd
  · rintro e he hroot
    have hcase : e = v.inum f.parentInum f.i ∨ Entered done (f :: rest) e := by
      obtain hd | hm := he
      · exact .inr (.inl hd)
      · obtain heq | hm := List.mem_cons.mp hm
        · exact .inl heq
        · exact .inr (.inr hm)
    obtain rfl | he := hcase
    · exact ⟨_, _, hscan.walked, hs, rfl, hpc⟩
    · obtain ⟨d, i, hwd, hsd, hi, hp⟩ := h.named e he hroot
      exact ⟨d, i, hwd, hsd, hi, hpass hp⟩

/-- The call for the root. -/
theorem Visiting.start (ho : s.volume.OrderlyOn D s.image.length) :
    Visiting s.volume s.image.length (fun _ => False) (fun _ _ => False) (start s) := by
  have hne : ROOTINO ≠ 34 := by decide
  have hvol := enter_volume hne ROOTINO s
  have hentered (e : Nat) : ¬ Entered (fun _ => False) [] e := by simp [Entered]
  have he : Erased s.volume (fun _ _ => False) s :=
    ⟨⟨fun _ _ => False.elim, fun _ _ => False.elim, fun _ _ => False.elim,
      fun _ _ _ _ => False.elim⟩, fun _ _ => rfl, fun _ _ => False.elim⟩
  have hi : Intact s.volume s.image.length (Entered (fun _ => False) []) s :=
    ⟨rfl, fun _ _ _ => rfl⟩
  have hr := reads_of_intact ho he hi (fun d hd => absurd hd (hentered d)) (ho.covers _ .root)
  refine ⟨he.congr (congrArg Volume.inode hvol), ⟨congrArg Prod.snd (enter_file hne ROOTINO s),
    fun o _ _ => congrFun (congrArg Volume.data hvol) o⟩, fun _ => False.elim, fun f hf => ?_,
    by simp [Fsck.start], fun _ _ => id, ⟨fun hc => absurd hc Bool.false_ne_true, rfl⟩,
    fun _ _ => False.elim, fun e hent hroot => ?_⟩
  · obtain rfl := List.mem_singleton.mp hf
    exact .enter hne .root hr rfl (fun _ => id) _
  · obtain hd | hm := hent
    · exact hd.elim
    · exact absurd (List.mem_singleton.mp hm) hroot

-- ---------------------------------------------------------------------------
-- One turn
-- ---------------------------------------------------------------------------

theorem valid_of_directory {inode : Dinode} (h : inode.type = T_DIR) :
    isInvalidType inode = false := by
  unfold isInvalidType
  rw [h]
  decide

theorem Erased.eq_of_invalid (h : Erased v cleared s) (hv : isInvalidType (s.myInodes e) = true) :
    s.myInodes e = v.inode e := by
  refine h.kept e fun d i hc he => ?_
  rw [← he, h.zeroed d i hc] at hv
  exact absurd hv (by decide)

theorem Erased.type_eq (h : Erased v cleared s) (ht : (s.myInodes e).type = T_DIR) :
    (v.inode e).type = T_DIR := by
  have hkept := h.kept e fun d i hc he => ?_
  · rwa [← hkept]
  · rw [← he, h.zeroed d i hc] at ht
    exact absurd ht (by decide)

/-- Clearing an entry of invalid type. -/
theorem Erased.clear (h : Erased v cleared s) (hw : v.Walked d) (hs : v.Seen d i)
    (hv : isInvalidType (s.myInodes (v.inum d i)) = true) :
    Erased v (fun d' i' => cleared d' i' ∨ (d' = d ∧ i' = i)) (clearInode (v.inum d i) s) := by
  have hnot (d' i') (hc : cleared d' i') : v.inum d' i' ≠ v.inum d i := fun he => by
    rw [← he, h.zeroed d' i' hc] at hv
    exact absurd hv (by decide)
  refine ⟨⟨?_, ?_, ?_, ?_⟩, fun e he => ?_, fun d' i' hc => ?_⟩
  · rintro d' i' (hc | ⟨rfl, rfl⟩)
    exacts [h.walked d' i' hc, hw]
  · rintro d' i' (hc | ⟨rfl, rfl⟩)
    exacts [h.seen d' i' hc, hs]
  · rintro d' i' (hc | ⟨rfl, rfl⟩)
    exacts [h.invalid d' i' hc, h.eq_of_invalid hv ▸ hv]
  · rintro d1 i1 d2 i2 (hc | ⟨rfl, rfl⟩) (hc' | ⟨rfl, rfl⟩) he
    · exact h.unique d1 i1 d2 i2 hc hc' he
    · exact absurd he.symm (hnot d1 i1 hc)
    · exact absurd he (hnot d2 i2 hc')
    · exact ⟨rfl, rfl⟩
  · rw [clearInode_myInodes, update_of_ne fun heq => he d i (.inr ⟨rfl, rfl⟩) heq.symm]
    exact h.kept e fun d' i' hc => he d' i' (.inl hc)
  · rw [clearInode_myInodes]
    obtain hc | ⟨rfl, rfl⟩ := hc
    · rw [update_of_ne (hnot d' i' hc)]
      exact h.zeroed d' i' hc
    · exact update_self ..

section Step

variable (h : Visiting v len done cleared ⟨s, f :: rest⟩) (ho : v.OrderlyOn D len)
include h

/-- From the third on, the entry that the loop is at is as at the start. -/
theorem Visiting.entry_same (hf : f.called = false) (h2 : 2 ≤ f.i) :
    SameEntry f.parentDirectory (v.content f.parentInum) f.i :=
  ((h.scanning f List.mem_cons_self).shows f.i h2).kept fun hc => h.not_passed hf (h.cleared _ _ hc)

include ho

theorem Visiting.count_eq :
    (s.myInodes f.parentInum).size.toNat / direntSize = v.count f.parentInum := by
  rw [h.erased.inode ho (ho.covers _ (h.scanning f List.mem_cons_self).walked)]
  rfl

theorem Visiting.seen_of_picks (hf : f.called = false) (hp : Picks f s) :
    v.Seen f.parentInum f.i ∧ inumAt f.parentDirectory f.i = v.inum f.parentInum f.i := by
  have h2 : 2 ≤ f.i := by
    by_contra hlt
    exact hp.name ((h.scanning f List.mem_cons_self).dots f.i (by omega)).nameAt
  have hsame := h.entry_same hf h2
  refine ⟨⟨h2, h.count_eq ho ▸ hp.lt, ?_, hsame.nameAt ▸ hp.name⟩, hsame.inumAt⟩
  have hi := hp.inum
  rwa [hsame.inumAt] at hi

end Step

theorem Visiting.step {w w' : Walk} (h : Visiting v len done cleared w) (ho : v.OrderlyOn D len)
    (hs : Step w w') : ∃ done' cleared', Visiting v len done' cleared' w' ∧
      ∀ d, done' d → Entered done w.frames d := by
  cases hs with
  | returned s f rest hc =>
    have hscan := h.scanning f List.mem_cons_self
    obtain ⟨e, hcall, hdone⟩ := h.chain.1 hc
    refine ⟨done, cleared, h.advance ho rfl rfl h.erased (fun _ _ => id) (fun _ _ => .inl) rfl rfl
      hscan.dots hscan.shows (fun _ => ?_), fun _ => .inl⟩
    refine ⟨fun hv => ?_, fun _ => hcall.inum ▸ hdone⟩
    rw [hcall.inum, valid_of_directory hcall.type] at hv
    cases hv
  | leave s f rest hc ha =>
    refine ⟨_, cleared, h.leave ho hc ha _, ?_⟩
    rintro d (hd | rfl)
    exacts [.inl hd, .inr (by simp)]
  | skip s f rest hc ha =>
    have hscan := h.scanning f List.mem_cons_self
    refine ⟨done, cleared, h.advance ho rfl rfl (h.erased.congr rfl) (fun _ _ => id)
      (fun _ _ => .inl) rfl rfl hscan.dots hscan.shows (fun hseen => ?_), fun _ => .inl⟩
    have hsame := h.entry_same hc hseen.past
    cases Acts.of_eq ha with
    | skip _ hfree =>
      rw [hsame.nameAt, hsame.inumAt] at hfree
      exact absurd hfree (not_or.mpr ⟨hseen.name, hseen.inum⟩)
  | keep s f rest inum hc ha =>
    have hscan := h.scanning f List.mem_cons_self
    cases Acts.of_eq ha with
    | keep hp hv ht =>
      obtain ⟨hseen, hi⟩ := h.seen_of_picks ho hc hp
      rw [hi] at hv ht
      refine ⟨done, cleared, h.advance ho rfl rfl (h.erased.congr rfl) (fun _ _ => id)
        (fun _ _ => .inl) rfl rfl hscan.dots hscan.shows (fun _ => ?_), fun _ => .inl⟩
      have hsame (hn : ∀ d i, cleared d i → v.inum d i ≠ v.inum f.parentInum f.i) :
          s.myInodes (v.inum f.parentInum f.i) = v.inode (v.inum f.parentInum f.i) :=
        h.erased.kept _ hn
      constructor
      · intro hinv
        by_contra hn
        rw [hsame fun d i hc he => hn ⟨d, i, hc, he⟩, hinv] at hv
        cases hv
      · intro hdir
        refine absurd hdir ?_
        rw [← hsame fun d i hc he => ?_]
        · exact ht
        · have hinv := h.erased.invalid d i hc
          rw [he, valid_of_directory hdir] at hinv
          cases hinv
  | descend s f rest inum r hc ha hr =>
    cases Acts.of_eq ha with
    | descend hp ht =>
      obtain ⟨hseen, hi⟩ := h.seen_of_picks ho hc hp
      rw [hi] at ht hr
      rw [hr]
      exact ⟨done, cleared, h.descend ho hc hseen (h.erased.type_eq ht) rfl rfl,
        fun _ => .inl⟩
  | clear s f rest inum hc ha =>
    have hscan := h.scanning f List.mem_cons_self
    cases Acts.of_eq ha with
    | clear hp hv =>
      obtain ⟨hseen, hi⟩ := h.seen_of_picks ho hc hp
      rw [hi] at hv ⊢
      have hfile := clearInode_file (v.inum f.parentInum f.i)
        ((s.touch (.inode f.parentInum)).touch (.inode (v.inum f.parentInum f.i)))
      have he : Erased v _ _ := (h.erased.congr (t := (s.touch (.inode f.parentInum)).touch
        (.inode (v.inum f.parentInum f.i))) rfl).clear hscan.walked hseen hv
      refine ⟨done, _, h.advance ho (congrArg Prod.fst hfile) (congrArg Prod.snd hfile) he
        (fun _ _ => .inl) (fun _ _ => id) rfl rfl (fun i hlt => ?_) (fun i h2 => ?_) fun _ => ?_,
        fun _ => .inl⟩
      · have hne : i ≠ f.i := by
          have := hseen.past
          omega
        exact (sameEntry_clearEntry hne _).dots.mpr (hscan.dots i hlt)
      · by_cases hif : i = f.i
        · subst hif
          exact ⟨fun hn => absurd (.inr ⟨rfl, rfl⟩) hn, fun _ => clearEntry_same f.i _⟩
        · have hshow := hscan.shows i h2
          have hsame := sameEntry_clearEntry hif f.parentDirectory
          refine ⟨fun hn => hsame.trans (hshow.kept fun hc => hn (.inl hc)), fun hy => ?_⟩
          exact hsame.trans (hshow.cleared (hy.resolve_right fun h => hif h.2))
      · refine ⟨fun _ => ⟨_, _, .inr ⟨rfl, rfl⟩, rfl⟩, fun hdir => ?_⟩
        have hinv := h.erased.eq_of_invalid hv ▸ hv
        rw [valid_of_directory hdir] at hinv
        cases hinv

theorem Visiting.run (ho : s.volume.OrderlyOn D s.image.length) (hr : (walk s).Run ls w) :
    ∃ done cleared, Visiting s.volume s.image.length done cleared w := by
  refine hr.invariant (P := fun _ w => ∃ done cleared,
    Visiting s.volume s.image.length done cleared w) ?_ ?_
  · rintro w rfl
    exact ⟨_, _, .start ho⟩
  · rintro _ _ _ _ ⟨done, cleared, h⟩ hstep
    obtain ⟨done', cleared', h', -⟩ := h.step ho (.of_next hstep)
    exact ⟨done', cleared', h'⟩

/-- Once the walk is over it has been to every directory it can see. -/
theorem Visiting.done_of_walked (h : Visiting v len done cleared ⟨t, []⟩) (hd : v.Walked d) :
    done d := by
  induction hd with
  | root => exact h.chain
  | child d i _ hs ht ih => exact ((h.left d ih).handled i hs).directory ht

/-- The walk never enters a directory that it is inside of. -/
theorem Visiting.noReentry {w : Walk} (h : Visiting v len done cleared w) (ho : v.OrderlyOn D len) :
    NoReentry w () := by
  obtain ⟨s, frames⟩ := w
  rintro f rest inum hfr hc ha
  dsimp only at hfr ha
  subst hfr
  cases Acts.of_eq ha with
  | descend hp ht =>
    obtain ⟨hseen, hi⟩ := h.seen_of_picks ho hc hp
    rw [hi] at ht ⊢
    exact fun hm => h.not_entered ho hc hseen (h.erased.type_eq ht) (.inr hm)

/-- The walk comes to its end. -/
theorem walk_finishes (ho : s.volume.OrderlyOn D s.image.length) :
    ∃ ls w, (walk s).Run ls w ∧ w.frames = [] :=
  exists_finished fun _ _ hr => by
    obtain ⟨done, cleared, hv⟩ := Visiting.run ho hr
    exact hv.noReentry ho

end PerrOS.Fsck
