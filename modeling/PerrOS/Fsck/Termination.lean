import Mathlib.Data.List.Nodup
import Mathlib.Data.Fintype.Card
import PerrOS.Fsck.Walk

/-!
# Termination of the directory walk

A walk that never enters a directory it is already inside of makes finitely
many calls: inode numbers have 16 bits, so the stack is never deeper than
65536 frames, and every frame has a bounded number of entries. An entry that
leads back to its own directory keeps the walk going for ever.
-/

namespace PerrOS.Fsck

open Lib Function

/-- The next step does not enter a directory that a call under way is about. -/
def NoReentry (w : Walk) (_ : Unit) : Prop :=
  ∀ f rest inum, w.frames = f :: rest → f.called = false →
    f.action w.globals = .descend inum → inum ∉ w.frames.map Frame.parentInum

-- ---------------------------------------------------------------------------
-- The measure
-- ---------------------------------------------------------------------------

/-- The stack is at most this deep: inode numbers are `ushort`. -/
def maxDepth : Nat := 2 ^ 16

/-- More than the turns of any entry loop. -/
def maxTurns : Nat := 2 ^ 30

/-- The entries of directory `inum`. -/
def entryCount (s : Globals) (inum : Nat) : Nat := (s.myInodes inum).size.toNat / direntSize

/-- The steps that a call has yet to make for itself. -/
def Frame.turns (s : Globals) (f : Frame) : Nat :=
  if f.called then max 2 (2 * (entryCount s f.parentInum - f.i))
  else 2 * (entryCount s f.parentInum - f.i) + 1

/-- The turns of the frames, the outermost call counting most. -/
def weight (s : Globals) : List Frame → Nat
  | [] => 0
  | f :: rest => weight s rest * maxTurns + f.turns s

def measure (w : Walk) : Nat := weight w.globals w.frames * maxTurns ^ (maxDepth - w.frames.length)

theorem entryCount_lt (s : Globals) (inum : Nat) : 2 * entryCount s inum + 2 < maxTurns := by
  have := (s.myInodes inum).size.isLt
  simp only [entryCount, direntSize, maxTurns]
  omega

theorem turns_lt (s : Globals) (f : Frame) : f.turns s < maxTurns := by
  have := entryCount_lt s f.parentInum
  unfold Frame.turns
  split <;> omega

theorem turns_mono {s t : Globals} {f : Frame}
    (h : entryCount t f.parentInum ≤ entryCount s f.parentInum) : f.turns t ≤ f.turns s := by
  unfold Frame.turns
  split <;> omega

theorem weight_mono {s t : Globals} {fs : List Frame}
    (h : ∀ f ∈ fs, entryCount t f.parentInum ≤ entryCount s f.parentInum) :
    weight t fs ≤ weight s fs := by
  induction fs with
  | nil => exact le_refl _
  | cons f rest ih =>
    have h1 := ih fun g hg => h g (List.mem_cons_of_mem _ hg)
    have h2 := turns_mono (h f List.mem_cons_self)
    have h3 := Nat.mul_le_mul_right maxTurns h1
    simp only [weight]
    omega

section Measure

variable {s t : Globals} {f f' g : Frame} {rest : List Frame}

/-- The measure drops when the innermost call has fewer turns left. -/
theorem measure_lt_of_top (hf : f'.turns t < f.turns s) (hr : weight t rest ≤ weight s rest) :
    measure ⟨t, f' :: rest⟩ < measure ⟨s, f :: rest⟩ := by
  have hpow : 0 < maxTurns ^ (maxDepth - (f :: rest).length) := Nat.pow_pos (by decide)
  have hmul := Nat.mul_le_mul_right maxTurns hr
  simp only [measure, List.length_cons] at hpow ⊢
  apply Nat.mul_lt_mul_of_pos_right ?_ hpow
  simp only [weight]
  omega

/-- The measure drops when the innermost call returns. -/
theorem measure_lt_of_leave (hd : (f :: rest).length ≤ maxDepth) (hf : 0 < f.turns s)
    (hr : weight t rest ≤ weight s rest) :
    measure ⟨t, rest⟩ < measure ⟨s, f :: rest⟩ := by
  have hpow : 0 < maxTurns ^ (maxDepth - (f :: rest).length) := Nat.pow_pos (by decide)
  have hsucc : maxDepth - rest.length = maxDepth - (f :: rest).length + 1 := by
    rw [List.length_cons] at hd ⊢
    omega
  have hmul := Nat.mul_le_mul_right maxTurns hr
  simp only [measure]
  rw [hsucc, Nat.pow_succ, Nat.mul_comm (maxTurns ^ _), ← Nat.mul_assoc]
  apply Nat.mul_lt_mul_of_pos_right ?_ hpow
  simp only [weight]
  omega

/-- The measure drops when a call is made: the turns of the new call do not
outweigh one turn of its caller. -/
theorem measure_lt_of_descend (hd : (f :: rest).length < maxDepth) (hf : f'.turns t < f.turns s)
    (hr : weight t rest ≤ weight s rest) :
    measure ⟨t, g :: f' :: rest⟩ < measure ⟨s, f :: rest⟩ := by
  have hpow : 0 < maxTurns ^ (maxDepth - (g :: f' :: rest).length) := Nat.pow_pos (by decide)
  have hsucc : maxDepth - (f :: rest).length = maxDepth - (g :: f' :: rest).length + 1 := by
    simp only [List.length_cons] at hd ⊢
    omega
  have hg := turns_lt t g
  have hmul := Nat.mul_le_mul_right maxTurns hr
  simp only [measure]
  rw [hsucc, Nat.pow_succ, Nat.mul_comm (maxTurns ^ _) maxTurns, ← Nat.mul_assoc]
  apply Nat.mul_lt_mul_of_pos_right ?_ hpow
  simp only [weight]
  calc (weight t rest * maxTurns + f'.turns t) * maxTurns + g.turns t
      < (weight t rest * maxTurns + f'.turns t + 1) * maxTurns := by rw [Nat.succ_mul]; omega
    _ ≤ (weight s rest * maxTurns + f.turns s) * maxTurns :=
      Nat.mul_le_mul_right _ (by omega)

end Measure

-- ---------------------------------------------------------------------------
-- Steps
-- ---------------------------------------------------------------------------

/-- The directories on the stack are different. -/
structure Nested (w : Walk) : Prop where
  nodup : (w.frames.map Frame.parentInum).Nodup
  lt : ∀ inum ∈ w.frames.map Frame.parentInum, inum < maxDepth

theorem Nested.length_le {w : Walk} (h : Nested w) : w.frames.length ≤ maxDepth := by
  have hsub : w.frames.map Frame.parentInum ⊆ List.range maxDepth :=
    fun k hk => List.mem_range.mpr (h.lt k hk)
  have := (List.subperm_of_subset h.nodup hsub).length_le
  rwa [List.length_map, List.length_range] at this

theorem inumAt_lt (dir : Memory) (i : Nat) : inumAt dir i < maxDepth := Memory.read_lt ..

theorem lt_of_action {f : Frame} {s : Globals} (h : f.action s ≠ .leave) :
    f.i < entryCount s f.parentInum := by
  by_contra hlt
  exact h (if_neg hlt)

theorem inum_of_descend {f : Frame} {s : Globals} (h : f.action s = .descend inum) :
    inum = inumAt f.parentDirectory f.i := by
  cases Acts.of_eq h
  rfl

section Step

variable {s t : Globals} {f f' : Frame} {rest : List Frame}

theorem weight_of_myInodes (h : t.myInodes = s.myInodes) (fs : List Frame) :
    weight t fs = weight s fs := by
  have he (inum : Nat) : entryCount t inum = entryCount s inum := by rw [entryCount, h, entryCount]
  exact Nat.le_antisymm (weight_mono fun _ _ => (he _).le) (weight_mono fun _ _ => (he _).ge)

/-- The end of a turn makes the measure drop, if the directories on the stack
have not grown since the turn began. -/
theorem measure_advance (hf : f'.parentInum = f.parentInum) (hi : f'.i = f.i)
    (hlt : f.called = true ∨ f.i < entryCount s f.parentInum)
    (hle : ∀ inum, entryCount t inum ≤ entryCount s inum) :
    measure (f'.advance rest t) < measure ⟨s, f :: rest⟩ := by
  have hw := writeDirectory_myInodes f' t
  apply measure_lt_of_top
  · have h1 := hle f.parentInum
    unfold entryCount at h1 hlt
    simp only [Frame.turns, entryCount, hw, hf, hi, Bool.false_eq_true, if_false]
    split
    · omega
    · rename_i hc
      have := hlt.resolve_left hc
      omega
  · rw [weight_of_myInodes hw]
    exact weight_mono fun g _ => hle g.parentInum

theorem entryCount_clearInode (inum k : Nat) (s : Globals) :
    entryCount (clearInode inum s) k ≤ entryCount s k := by
  unfold entryCount
  rw [clearInode_myInodes]
  by_cases h : k = inum
  · rw [h, update_self]
    exact Nat.zero_le _
  · rw [update_of_ne h]

theorem entryCount_enter (h : k ≠ p) (g : Nat) (s : Globals) :
    entryCount (enter p g s).2 k = entryCount s k := by
  unfold entryCount
  rw [enter_myInodes]
  split
  · rename_i h34
    rw [update_of_ne (h34 ▸ h)]
  · rfl

theorem i_enter (p g : Nat) (s : Globals) : (enter p g s).1.i = 0 := rfl

theorem parentInum_enter (p g : Nat) (s : Globals) : (enter p g s).1.parentInum = p := rfl

/-- A step that enters no directory on the stack keeps the stack free of
repetitions and makes the measure drop. -/
theorem Nested.step {w w' : Walk} (hn : Nested w) (hs : Step w w') (hok : NoReentry w ()) :
    Nested w' ∧ measure w' < measure w := by
  cases hs with
  | returned s f rest hc =>
    exact ⟨⟨hn.nodup, hn.lt⟩, measure_advance rfl rfl (.inl hc) fun _ => le_refl _⟩
  | leave s f rest hc ha =>
    refine ⟨⟨hn.nodup.of_cons, fun k hk => hn.lt k (List.mem_cons_of_mem _ hk)⟩, ?_⟩
    have hpos : 0 < f.turns s := by
      rw [Frame.turns, hc, if_neg Bool.false_ne_true]
      omega
    refine measure_lt_of_leave hn.length_le hpos (weight_of_myInodes ?_ rest).le
    rfl
  | skip s f rest hc ha =>
    exact ⟨⟨hn.nodup, hn.lt⟩,
      measure_advance rfl rfl (.inr (lt_of_action (by simp [ha]))) fun _ => le_refl _⟩
  | clear s f rest inum hc ha =>
    exact ⟨⟨hn.nodup, hn.lt⟩,
      measure_advance rfl rfl (.inr (lt_of_action (by simp [ha]))) fun k =>
        entryCount_clearInode inum k _⟩
  | keep s f rest inum hc ha =>
    exact ⟨⟨hn.nodup, hn.lt⟩,
      measure_advance rfl rfl (.inr (lt_of_action (by simp [ha]))) fun _ => le_refl _⟩
  | descend s f rest inum r hc ha hr =>
    have hout : inum ∉ (f :: rest).map Frame.parentInum := hok f rest inum rfl hc ha
    have hsame (k : Nat) (hk : k ∈ (f :: rest).map Frame.parentInum) :
        entryCount r.2 k = entryCount s k := by
      rw [hr]
      exact entryCount_enter (fun h => hout (by rwa [h] at hk)) ..
    have hnested : Nested ⟨r.2, r.1 :: { f with called := true } :: rest⟩ := by
      have hp : r.1.parentInum = inum := by rw [hr, parentInum_enter]
      constructor
      · simp only [List.map_cons, hp]
        exact List.nodup_cons.mpr ⟨hout, hn.nodup⟩
      · intro k hk
        simp only [List.map_cons, hp, List.mem_cons] at hk
        obtain rfl | hk := hk
        · rw [inum_of_descend ha]
          exact inumAt_lt ..
        · exact hn.lt k (by simpa using hk)
    refine ⟨hnested, measure_lt_of_descend hnested.length_le ?_ ?_⟩
    · have hlt := lt_of_action (f := f) (s := s) (by simp [ha])
      have hcount := hsame f.parentInum List.mem_cons_self
      simp only [Frame.turns, hcount, hc, if_true, Bool.false_eq_true, if_false]
      omega
    · exact weight_mono fun g hg =>
        (hsame _ (List.mem_cons_of_mem _ (List.mem_map_of_mem hg))).le

end Step

/-- A walk from the root that never enters a directory it is inside of takes
a bounded number of steps. -/
theorem walk_terminates (s : Globals) :
    ∃ N, ∀ ls w, ((walk s).restrict NoReentry).Run ls w → ls.length ≤ N := by
  refine ⟨measure (start s), fun ls w h => ?_⟩
  have hinv : Nested w ∧ ls.length + measure w ≤ measure (start s) := by
    refine h.invariant (P := fun ls w => Nested w ∧ ls.length + measure w ≤ measure (start s))
      ?_ ?_
    · rintro w rfl
      refine ⟨⟨by simp [start], fun k hk => ?_⟩, by simp⟩
      simp only [start, List.map_cons, parentInum_enter, List.map_nil, List.mem_singleton] at hk
      rw [hk]
      decide
    · rintro ls w l w' ⟨hn, hle⟩ ⟨hstep, hok⟩
      obtain ⟨hn', hlt⟩ := hn.step (.of_next hstep) hok
      refine ⟨hn', ?_⟩
      rw [List.length_append, List.length_singleton]
      omega
  omega

/-- A walk that never does comes to its end. -/
theorem exists_finished (h : ∀ ls w, (walk s).Run ls w → NoReentry w ()) :
    ∃ ls w, (walk s).Run ls w ∧ w.frames = [] := by
  obtain ⟨N, hN⟩ := walk_terminates s
  by_contra hnot
  have hlong (n : Nat) : ∃ ls w, ((walk s).restrict NoReentry).Run ls w ∧ ls.length = n := by
    induction n with
    | zero => exact ⟨[], _, .init rfl, rfl⟩
    | succ n ih =>
      obtain ⟨ls, ⟨t, frames⟩, hr, hn⟩ := ih
      cases frames with
      | nil => exact absurd ⟨ls, _, hr.of_restrict, rfl⟩ hnot
      | cons f rest =>
        obtain ⟨w', hnext⟩ := exists_next t f rest
        exact ⟨_, w', hr.step (l := ()) ⟨hnext, h ls _ hr.of_restrict⟩, by simp [hn]⟩
  obtain ⟨ls, w, hr, hn⟩ := hlong (N + 1)
  have := hN ls w hr
  omega

-- ---------------------------------------------------------------------------
-- A directory that names itself
-- ---------------------------------------------------------------------------

-- The root has one block, 30, whose third entry is named `a` and is the root.
def selfNaming : Globals where
  image := ⟨fun o => if o = 15392 then 1 else if o = 15394 then 97 else 0, 524288, 0⟩
  garbage := fun _ => 0
  mySuperblock := ⟨1024, 995, 200⟩
  myInodes i :=
    if i = 1 then { Dinode.zero with type := 1, size := 48, addrs j := if j = 0 then 30 else 0 }
    else Dinode.zero
  theirFreeMap := fun _ => 0xff
  myFreeMap := fun _ => 0
  touched := []

/-- The bytes of the third entry, from byte 32 of `m` on. -/
def NamesRoot (m : Memory) : Prop := m 32 = 1 ∧ m 33 = 0 ∧ m 34 = 97

/-- What block 30 of the disk holds. -/
def rootBlock (s : Globals) : Memory := fun o => s.image.data (15360 + o)

/-- The disk and the inodes stay as they are while the walk goes round. -/
structure SelfNaming (s : Globals) : Prop where
  inodes : s.myInodes = selfNaming.myInodes
  length : 15872 ≤ s.image.length
  block : NamesRoot (rootBlock s)

/-- The innermost call is about the root and has not passed the third entry. -/
structure Circling (w : Walk) (f : Frame) (rest : List Frame) : Prop where
  globals : SelfNaming w.globals
  frames : w.frames = f :: rest
  root : f.parentInum = 1
  scanning : f.called = false
  le : f.i ≤ 2
  dots : ∀ i < 2, nameAt f.parentDirectory i = dot
  entry : NamesRoot f.parentDirectory

theorem addrs_selfNaming {s : Globals} (h : s.myInodes = selfNaming.myInodes) (k : Nat) :
    (s.myInodes 1).addrs k = if k = 0 then 30 else 0 := by
  rw [h]
  rfl

theorem SelfNaming.touch {s : Globals} (h : SelfNaming s) (a : Access) : SelfNaming (s.touch a) :=
  ⟨h.inodes, h.length, h.block⟩

theorem SelfNaming.writeBlock {s : Globals} (h : SelfNaming s) (hd : NamesRoot dir) (bytes : Nat) :
    SelfNaming (writeBlock 30 0 bytes dir s) := by
  have hpos : (s.image.seekToBlock 30).pos = 15360 := s.image.seekToBlock_pos (by decide)
  refine ⟨h.inodes, ?_, ?_⟩
  · have := h.length
    simp only [PerrOS.Fsck.writeBlock, Image.write, Image.seekToBlock_length]
    omega
  · have hb (o : Nat) (ho : o < 512) :
        rootBlock (PerrOS.Fsck.writeBlock 30 0 bytes dir s) o = dir o := by
      simp only [rootBlock, PerrOS.Fsck.writeBlock, Image.write, hpos, BSIZE]
      rw [if_pos ⟨by omega, by omega⟩, Nat.add_sub_cancel_left, Nat.mul_zero, Nat.zero_add]
    exact ⟨(hb 32 (by decide)).trans hd.1, (hb 33 (by decide)).trans hd.2.1,
      (hb 34 (by decide)).trans hd.2.2⟩

theorem SelfNaming.writeDirectory {s : Globals} (h : SelfNaming s) (hf : f.parentInum = 1)
    (hd : NamesRoot f.parentDirectory) : SelfNaming (writeDirectory f s) := by
  have ht := h.touch (.inode 1)
  have ha := addrs_selfNaming ht.inodes
  unfold PerrOS.Fsck.writeDirectory
  simp only [hf, ha]
  rw [if_neg (by decide)]
  refine loop_invariant (P := fun _ t => SelfNaming t) ht fun k t _ ht => ?_
  by_cases hk : k = 0
  · subst hk
    exact ht.writeBlock hd f.bytes
  · simp only [hk, if_false]
    exact ht

theorem SelfNaming.readBlock {r : Memory × Globals} (h : SelfNaming r.2) (bytes : Nat) :
    NamesRoot (readBlock 30 0 bytes r).1 ∧ SelfNaming (readBlock 30 0 bytes r).2 := by
  have hpos : (r.2.image.seekToBlock 30).pos = 15360 := r.2.image.seekToBlock_pos (by decide)
  have hlen := h.length
  have hb (o : Nat) (ho : o < 512) : (PerrOS.Fsck.readBlock 30 0 bytes r).1 o = rootBlock r.2 o := by
    have h1 : 0 ≤ o ∧ o < 512 * (0 + 1) := by omega
    have h2 : o < 512 ∧ 15360 + o < r.2.image.length := by omega
    simp only [PerrOS.Fsck.readBlock, Image.read, hpos, BSIZE, Image.seekToBlock_length,
      Image.seekToBlock_data, Nat.mul_zero, Nat.sub_zero, if_pos h1, if_pos h2, rootBlock]
  refine ⟨⟨(hb 32 (by decide)).trans h.block.1, (hb 33 (by decide)).trans h.block.2.1,
    (hb 34 (by decide)).trans h.block.2.2⟩, (readBlock_myInodes ..).trans h.inodes, ?_, ?_⟩
  · simpa [PerrOS.Fsck.readBlock] using hlen
  · have hd : (PerrOS.Fsck.readBlock 30 0 bytes r).2.image.data = r.2.image.data := by
      simp [PerrOS.Fsck.readBlock]
    unfold rootBlock
    rw [hd]
    exact h.block

theorem SelfNaming.readDirectory {s : Globals} (h : SelfNaming s) (bytes : Nat) :
    NamesRoot (readDirectory (s.myInodes 1) bytes s).1 ∧
      SelfNaming (readDirectory (s.myInodes 1) bytes s).2 := by
  have ha := addrs_selfNaming h.inodes
  unfold PerrOS.Fsck.readDirectory
  simp only [ha]
  rw [if_neg (by decide)]
  have hinv := loop_invariant (n := NDIRECT) (s := ((fun _ => 0 : Memory), s))
    (f := fun k r => if 0 < (if k = 0 then 30 else 0 : BitVec 32) then
      PerrOS.Fsck.readBlock (if k = 0 then 30 else 0) k bytes r else r)
    (P := fun k r => (0 < k → NamesRoot r.1) ∧ SelfNaming r.2) ⟨by omega, h⟩ fun k r _ hr => ?_
  · exact ⟨hinv.1 (by decide), hinv.2⟩
  · by_cases hk : k = 0
    · subst hk
      have hb := hr.2.readBlock bytes
      exact ⟨fun _ => hb.1, hb.2⟩
    · simp only [hk, if_false]
      exact ⟨fun _ => hr.1 (by omega), hr.2⟩

theorem SelfNaming.enter {s : Globals} (h : SelfNaming s) (g : Nat) (rest : List Frame) :
    Circling ⟨(enter 1 g s).2, (enter 1 g s).1 :: rest⟩ (enter 1 g s).1 rest := by
  have hr (bytes) := (h.touch (.inode 1)).readDirectory bytes
  unfold PerrOS.Fsck.enter patch
  simp only [show ¬ (1 = 34) by decide, if_false]
  refine ⟨(hr _).2, rfl, rfl, rfl, Nat.zero_le 2, fun i hi => nameAt_setDots hi .., ?_⟩
  · dsimp only [NamesRoot]
    rw [setDots_outside (by decide), setDots_outside (by decide), setDots_outside (by decide)]
    exact (hr _).1

/-- Three turns of the loop make one more call. -/
theorem Circling.next {w : Walk} (h : Circling w f rest) :
    ∃ w' f' rest', w.next = some w' ∧ Circling w' f' rest' ∧
      3 * w'.frames.length + f'.i = 3 * w.frames.length + f.i + 1 := by
  obtain ⟨s, frames⟩ := w
  obtain rfl : frames = f :: rest := h.frames
  have hle := h.le
  have hsize : f.i < (s.myInodes f.parentInum).size.toNat / direntSize := by
    have hs : s.myInodes = selfNaming.myInodes := h.globals.inodes
    rw [h.root, hs]
    change f.i < 3
    omega
  by_cases hi : f.i < 2
  · have hskip : f.action s = .skip := by
      have hname := h.dots f.i hi
      rw [Frame.action, if_pos hsize]
      simp [hname]
    refine ⟨f.advance rest (s.touch (.inode f.parentInum)), { f with i := f.i + 1, called := false },
      rest, ?_, ⟨(h.globals.touch _).writeDirectory h.root h.entry, rfl, h.root, rfl, hi, h.dots,
        h.entry⟩, ?_⟩
    · exact (Step.skip s f rest h.scanning hskip).next
    · simp only [Frame.advance, List.length_cons]
      omega
  · have hi2 : f.i = 2 := by omega
    have hdescend : f.action s = .descend 1 := by
      have hs : s.myInodes = selfNaming.myInodes := h.globals.inodes
      have hinum : inumAt f.parentDirectory f.i = 1 := by
        have he := h.entry
        simp only [inumAt, hi2, direntSize, Memory.read, he.1, he.2.1]
        decide
      have hname : nameAt f.parentDirectory f.i = 97 := by
        rw [hi2]
        exact h.entry.2.2
      rw [Frame.action, if_pos hsize, hinum, hname, hs]
      decide
    have hstep := (Step.descend s f rest 1 _ h.scanning hdescend rfl).next
    refine ⟨_, _, _, hstep, ((h.globals.touch _).touch _).enter .., ?_⟩
    simp only [i_enter, List.length_cons]
    omega

theorem exists_run_circling (n : Nat) : ∃ ls w f rest, (walk selfNaming).Run ls w ∧
    Circling w f rest ∧ 3 * w.frames.length + f.i = 3 + n := by
  induction n with
  | zero =>
    have hself : SelfNaming selfNaming := ⟨rfl, by decide, by decide, by decide, by decide⟩
    exact ⟨[], _, _, _, .init rfl, hself.enter ROOTINO [], rfl⟩
  | succ n ih =>
    obtain ⟨ls, w, f, rest, hr, hc, hn⟩ := ih
    obtain ⟨w', f', rest', hnext, hc', hn'⟩ := hc.next
    exact ⟨_, w', f', rest', hr.step (l := ()) hnext, hc', by omega⟩

/-- The root that names itself is entered again and again: no bound holds for
the number of calls under way. -/
theorem walk_recurses_forever :
    ¬ ∃ N, ∀ ls w, (walk selfNaming).Run ls w → w.frames.length ≤ N := by
  rintro ⟨N, hN⟩
  obtain ⟨ls, w, f, rest, hr, hc, hn⟩ := exists_run_circling (3 * N)
  have := hc.le
  have := hN ls w hr
  omega

end PerrOS.Fsck
