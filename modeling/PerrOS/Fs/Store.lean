import PerrOS.Fs.Operations
import PerrOS.Lib.System

/-!
# The file system as a store of files

Any run of the operations on inodes, with the copies of inodes in memory: what
the calls answer is what a store of byte lists answers. On the way the blocks in
use are those of the files, each in one place of one file, and of the panics
those are left that say that something has run out.
-/

namespace PerrOS.Fs

open Lib
open Function (update)

def T_DEV : BitVec 16 := 3

structure State where
  disk : Disk
  /-- The copies in memory that are valid. -/
  icache : Nat → Option Inode
  /-- Why the system has stopped. -/
  fault : Option Fault

inductive Call
  | ilock (n : Nat)
  /-- The place of the inode in the cache is recycled. -/
  | recycle (n : Nat)
  | ialloc (type : BitVec 16)
  | readi (n : Nat) (off cnt : Word)
  | writei (n : Nat) (off : Word) (src : List Byte)
  | iupdate (n : Nat) (major minor nlink : BitVec 16)
  | iput (n : Nat)

inductive Result
  | unit
  | inum (n : Nat)
  | bytes (r : Option (List Byte))
  | count (r : Option Nat)

/-- The program of a call that can be made, and the cache it leaves. -/
def program (sb : Superblock) (icache : Nat → Option Inode) :
    Call → Option (FsM (Result × (Nat → Option Inode)))
  | .ilock n =>
    if n < sb.ninodes.toNat ∧ icache n = none then some do
      let ip ← iread n
      return (.unit, update icache n (some ip))
    else none
  | .recycle n => some do return (.unit, update icache n none)
  | .ialloc type =>
    if type ≠ 0 then some do
      let n ← ialloc type
      return (.inum n, icache)
    else none
  | .readi n off cnt =>
    match icache n with
    | some ip =>
      if ip.type ≠ T_DEV then some do
        let (r, ip) ← readi ip off cnt
        return (.bytes r, update icache n (some ip))
      else none
    | none => none
  | .writei n off src =>
    match icache n with
    | some ip =>
      if ip.type ≠ T_DEV ∧ src.length < 2 ^ 32 then some do
        let (r, ip) ← writei n ip src off (.ofNat 32 src.length)
        return (.count (r.map BitVec.toNat), update icache n (some ip))
      else none
    | none => none
  | .iupdate n major minor nlink =>
    match icache n with
    | some ip => some do
      let ip := ip.relink major minor nlink
      iupdate n ip
      return (.unit, update icache n (some ip))
    | none => none
  | .iput n =>
    match icache n with
    | some ip =>
      if ip.nlink = 0 then some do
        ifree n ip
        return (.unit, update icache n none)
      else none
    | none => none

/-- A call with its result, where it returns. -/
abbrev Label := Call × Option Result

inductive Step (sb : Superblock) (s : State) : Label → State → Prop
  | done (hok : s.fault = none) (hp : program sb s.icache c = some m)
    (hrun : m.run.run s.disk = (.ok (r, icache), d)) : Step sb s (c, some r) ⟨d, icache, none⟩
  | fail (hok : s.fault = none) (hp : program sb s.icache c = some m)
    (hrun : m.run.run s.disk = (.error e, d)) :
    Step sb s (c, none) { s with disk := d, fault := some e }

/-- Started on a disk. -/
def system (sb : Superblock) (d : Disk) : System State Label where
  init s := s = ⟨d, fun _ => none, none⟩
  step := Step sb

-- ---------------------------------------------------------------------------
-- A store of files
-- ---------------------------------------------------------------------------

abbrev Files := Nat → Option File

/-- The files after a call. -/
def effect : Call × Result → Files → Files
  | (.ialloc type, .inum n), fs => update fs n (some ⟨type, 0, 0, 0, []⟩)
  | (.writei n off src, _), fs => update fs n ((fs n).map fun f => (f.write off src).2)
  | (.iupdate n major minor nlink, _), fs =>
    update fs n ((fs n).map fun f => { f with major, minor, nlink })
  | (.iput n, _), fs => update fs n none
  | _, fs => fs

/-- What a call of a store with `ninodes` files answers. -/
def Answers (ninodes : Nat) (fs : Files) : Call → Result → Prop
  | .ilock n, r => r = .unit ∧ fs n ≠ none
  | .recycle _, r => r = .unit
  | .ialloc _, r => ∃ n, r = .inum n ∧ 1 ≤ n ∧ n < ninodes ∧ fs n = none ∧
      ∀ m, 1 ≤ m → m < n → fs m ≠ none
  | .readi n off cnt, r => ∃ f, fs n = some f ∧ r = .bytes (f.read off cnt)
  | .writei n off src, r => ∃ f, fs n = some f ∧ r = .count (f.write off src).1
  | .iupdate n _ _ _, r => r = .unit ∧ fs n ≠ none
  | .iput n, r => r = .unit ∧ ∃ f, fs n = some f ∧ f.nlink = 0

/-- The calls that have returned. -/
def returned (l : Label) : Option (Call × Result) := l.2.map fun r => (l.1, r)

/-- The files after some calls. -/
def filesAfter (fs : Files) (ls : List Label) : Files :=
  (ls.filterMap returned).foldl (fun fs l => effect l fs) fs

variable {sb : Superblock} {d d' : Disk} {s t : State} {l : Label} {ls : List Label} {n : Nat}
  {ip : Inode}

/-- The copies in memory are those on the disk. -/
structure Cached (sb : Superblock) (d : Disk) (icache : Nat → Option Inode) : Prop where
  inode : ∀ n ip, icache n = some ip → ip = d.inode sb n ∧ ip.type ≠ 0
  lt : ∀ n ip, icache n = some ip → n < sb.ninodes.toNat

/-- Where the system has not stopped. -/
structure Good (sb : Superblock) (fs : Files) (d : Disk) (icache : Nat → Option Inode) :
    Prop where
  sound : Sound sb d
  cached : Cached sb d icache
  files : d.file sb = fs

theorem file_of_type (ht : (d.inode sb n).type ≠ 0) : d.file sb n = some ((d.inode sb n).file d) :=
  if_neg ht

theorem file_eq_none : d.file sb n = none ↔ (d.inode sb n).type = 0 := by
  unfold Disk.file
  split
  · rename_i h
    exact iff_of_true rfl h
  · rename_i h
    exact iff_of_false (by simp) h

namespace Cached

variable {icache : Nat → Option Inode}

theorem set (h : Cached sb d icache) (hc : Commit sb d n ip d') (ht : ip.type ≠ 0)
    (hn : n < sb.ninodes.toNat) : Cached sb d' (update icache n (some ip)) := by
  refine ⟨fun m ip' hm => ?_, fun m ip' hm => ?_⟩
  · by_cases he : m = n
    · subst he
      rw [Function.update_self] at hm
      cases hm
      exact ⟨hc.inode_self.symm, ht⟩
    · rw [Function.update_of_ne he] at hm
      rw [hc.inode, Function.update_of_ne he]
      exact h.inode m ip' hm
  · by_cases he : m = n
    · subst he
      exact hn
    · rw [Function.update_of_ne he] at hm
      exact h.lt m ip' hm

/-- The copy of an inode that has changed is dropped. -/
theorem drop (h : Cached sb d icache) (hc : Commit sb d n ip d') :
    Cached sb d' (update icache n none) := by
  have hother (m : Nat) (ip' : Inode) (hm : update icache n none m = some ip') :
      m ≠ n ∧ icache m = some ip' := by
    by_cases he : m = n
    · subst he
      rw [Function.update_self] at hm
      cases hm
    · rw [Function.update_of_ne he] at hm
      exact ⟨he, hm⟩
  refine ⟨fun m ip' hm => ?_, fun m ip' hm => h.lt m ip' (hother m ip' hm).2⟩
  obtain ⟨hne, hm⟩ := hother m ip' hm
  rw [hc.inode, Function.update_of_ne hne]
  exact h.inode m ip' hm

/-- An inode of which there is no copy changes. -/
theorem other (h : Cached sb d icache) (hc : Commit sb d n ip d') (hnone : icache n = none) :
    Cached sb d' icache := by
  have := h.drop hc
  rwa [← hnone, Function.update_eq_self] at this

end Cached

/-- The files after a change of one of them. -/
theorem Commit.files {fs : Files} {f : Option File} (hc : Commit sb d n ip d')
    (hfiles : d.file sb = fs) (hn : d'.file sb n = f) : d'.file sb = update fs n f := by
  funext m
  by_cases he : m = n
  · subst he
    rw [Function.update_self, hn]
  · rw [Function.update_of_ne he, hc.others m he, hfiles]

/-- The failures of the calls: an inode that is not in use is asked for, or there are no inodes
left, or no blocks. -/
def Stops (sb : Superblock) (fs : Files) (c : Call) (e : Fault) (d' : Disk) : Prop :=
  match c with
  | .ilock n => e = .panic "ilock: no type" ∧ fs n = none
  | .ialloc _ => e = .panic "ialloc: no inodes" ∧
      ∀ m, 1 ≤ m → m < sb.ninodes.toNat → fs m ≠ none
  | .writei .. => NoRoom sb e d'
  | _ => False

/-- Each call answers as the store does, or stops the system. -/
theorem program_outcome {icache : Nat → Option Inode} {fs : Files} (h : Good sb fs d icache)
    (hp : program sb icache c = some m) : Outcome m (fun r d' =>
      Answers sb.ninodes.toNat fs c r.1 ∧ Good sb (effect (c, r.1) fs) d' r.2)
      (Stops sb fs c) d := by
  obtain ⟨hsound, hcached, rfl⟩ := h
  cases c with
  | ilock n =>
    obtain ⟨⟨hn, hnone⟩, hp⟩ := Option.ite_none_right_eq_some.mp hp
    cases hp
    rw [Outcome.bind, iread_outcome hsound.consistent.formatted hn]
    split
    · rename_i ht
      exact ⟨rfl, file_eq_none.mpr ht⟩
    · rename_i ht
      refine Outcome.pure.mpr ⟨⟨rfl, fun hf => ht (file_eq_none.mp hf)⟩, hsound,
        hcached.set (.refl hsound n) ht hn, rfl⟩
  | recycle n =>
    cases hp
    exact Outcome.pure.mpr ⟨rfl, hsound, hcached.drop (.refl hsound n), rfl⟩
  | ialloc type =>
    obtain ⟨htype, hp⟩ := Option.ite_none_right_eq_some.mp hp
    cases hp
    refine Outcome.bind.mpr ((ialloc_outcome hsound type).mono (fun n d' ha => ?_) ?_)
    · have hnone : icache n = none := by
        cases hc : icache n with
        | none => rfl
        | some ip =>
          obtain ⟨rfl, ht⟩ := hcached.inode n ip hc
          exact absurd ha.free ht
      have hfile : d'.file sb n = some ⟨type, 0, 0, 0, []⟩ := by
        rw [ha.commit.file_self htype, ha.file]
      exact Outcome.pure.mpr ⟨⟨n, rfl, ha.pos, ha.lt, file_eq_none.mpr ha.free,
        fun m hm hlt hf => ha.first m hm hlt (file_eq_none.mp hf)⟩, ha.commit.sound,
        hcached.other ha.commit hnone, ha.commit.files rfl hfile⟩
    · rintro e d' ⟨rfl, rfl, hused⟩
      exact ⟨rfl, fun m hm hlt hf => hused m hm hlt (file_eq_none.mp hf)⟩
  | readi n off cnt =>
    cases hc : icache n with
    | none => simp [program, hc] at hp
    | some ip =>
      simp only [program, hc] at hp
      obtain ⟨-, hp⟩ := Option.ite_none_right_eq_some.mp hp
      cases hp
      obtain ⟨rfl, ht⟩ := hcached.inode n ip hc
      refine Outcome.bind.mpr ((readi_outcome hsound off cnt).mpr (Outcome.pure.mpr ?_))
      refine ⟨⟨_, file_of_type ht, rfl⟩, hsound, ?_, rfl⟩
      exact hcached.set (.refl hsound n) ht (hcached.lt n _ hc)
  | writei n off src =>
    cases hc : icache n with
    | none => simp [program, hc] at hp
    | some ip =>
      simp only [program, hc] at hp
      obtain ⟨⟨-, hsrc⟩, hp⟩ := Option.ite_none_right_eq_some.mp hp
      cases hp
      obtain ⟨rfl, ht⟩ := hcached.inode n ip hc
      have hn := hcached.lt n _ hc
      refine Outcome.bind.mpr ((writei_outcome hsound hn ht hsrc).mono (fun r d' hw => ?_)
        fun e d' he => he.1)
      have hwt : r.2.type ≠ 0 := by
        have : (r.2.file d').type = ((d.inode sb n).file d).type := by
          rw [hw.file, File.write]
          split <;> rfl
        exact fun h0 => ht (this.symm.trans h0)
      have hfile : d'.file sb n = (d.file sb n).map fun f => (f.write off src).2 := by
        rw [hw.commit.file_self hwt, hw.file, file_of_type ht, Option.map_some]
      exact Outcome.pure.mpr ⟨⟨_, file_of_type ht, by rw [hw.count]⟩, hw.commit.sound,
        hcached.set hw.commit hwt hn, hw.commit.files rfl hfile⟩
  | iupdate n major minor nlink =>
    cases hc : icache n with
    | none => simp [program, hc] at hp
    | some ip =>
      simp only [program, hc] at hp
      cases hp
      obtain ⟨rfl, ht⟩ := hcached.inode n ip hc
      have hn := hcached.lt n _ hc
      refine Outcome.bind.mpr ((relink_outcome hsound hn major minor nlink).imp
        fun _ d' hrelink => ?_)
      obtain ⟨hcommit, hf⟩ := hrelink
      have hfile : d'.file sb n = (d.file sb n).map fun f => { f with major, minor, nlink } := by
        rw [hcommit.file_self ht, hf, file_of_type ht, Option.map_some]
      exact Outcome.pure.mpr ⟨⟨rfl, fun hf => ht (file_eq_none.mp hf)⟩, hcommit.sound,
        hcached.set hcommit ht hn, hcommit.files rfl hfile⟩
  | iput n =>
    cases hc : icache n with
    | none => simp [program, hc] at hp
    | some ip =>
      simp only [program, hc] at hp
      obtain ⟨hlink, hp⟩ := Option.ite_none_right_eq_some.mp hp
      cases hp
      obtain ⟨rfl, ht⟩ := hcached.inode n ip hc
      refine Outcome.bind.mpr ((ifree_outcome hsound (hcached.lt n _ hc)).imp
        fun _ d' hcommit => ?_)
      have hfile : d'.file sb n = none := by
        rw [file_eq_none, hcommit.inode_self]
      exact Outcome.pure.mpr ⟨⟨rfl, _, file_of_type ht, hlink⟩, hcommit.sound,
        hcached.drop hcommit, hcommit.files rfl hfile⟩

-- ---------------------------------------------------------------------------
-- Runs
-- ---------------------------------------------------------------------------

theorem filesAfter_done (fs : Files) (ls : List Label) (c : Call) (r : Result) :
    filesAfter fs (ls ++ [(c, some r)]) = effect (c, r) (filesAfter fs ls) := by
  unfold filesAfter
  rw [List.filterMap_append, List.foldl_append]
  rfl

theorem run_good (hd : Sound sb d) (h : (system sb d).Run ls s) (hok : s.fault = none) :
    Good sb (filesAfter (d.file sb) ls) s.disk s.icache := by
  revert hok
  refine h.invariant (P := fun ls s => s.fault = none →
    Good sb (filesAfter (d.file sb) ls) s.disk s.icache) ?_ ?_
  · rintro _ rfl _
    exact ⟨hd, ⟨by simp, by simp⟩, rfl⟩
  · intro ls s l t hgood hs hok
    cases hs with
    | done hok' hp hrun =>
      have := (Outcome.run hrun).mp (program_outcome (hgood hok') hp)
      rw [filesAfter_done]
      exact this.2
    | fail => cases hok

/-- What a call answers after any calls is what a store of byte lists answers. -/
theorem call_answers (hd : Sound sb d) (h : (system sb d).Run (ls ++ [(c, some r)]) s) :
    Answers sb.ninodes.toNat (filesAfter (d.file sb) ls) c r := by
  obtain ⟨t, hrun, hs⟩ := h.of_concat
  cases hs with
  | done hok hp hr => exact ((Outcome.run hr).mp (program_outcome (run_good hd hrun hok) hp)).1

/-- Eight inodes, and three blocks of data. -/
def tiny : Superblock := ⟨8, 3, 8⟩

/-- No inode is in use. -/
def blank : Disk where
  size := 8
  block b i :=
    if b = 1 then if i = 0 then 8 else if i = 4 then 3 else if i = 8 then 8 else 0
    else if b = 4 then if i = 0 then 0x1f else 0
    else 0

theorem blank_formatted : Formatted tiny blank where
  super := by decide
  size := rfl
  data_le := by decide +kernel
  small := by decide

theorem blank_inode (n : Nat) : blank.inode tiny n = .none := by
  unfold Disk.inode
  split
  · rename_i hn
    have hb : IBLOCK n = 2 := by
      have : n < 8 := hn
      unfold IBLOCK IPB
      omega
    have hblock : blank.block (IBLOCK n) = fun _ => 0 := by
      rw [hb]
      rfl
    simp only [Inode.load, hblock, Memory.read_zero]
    rfl
  · rfl

theorem tiny_data : tiny.data = 5 := by decide +kernel

theorem blank_busy (hb : b < 8) : blank.busy tiny b = decide (b < 5) := by
  have hcases : ∀ b < 8, blank.busy tiny b = decide (b < 5) := by decide +kernel
  exact hcases b hb

theorem blank_sound : Sound tiny blank where
  consistent := by
    have hslots : slots blank (blank.inode tiny) = fun _ => 0 := by
      funext ⟨n, t⟩
      rw [slots, blank_inode]
      exact Inode.slot_cleared .none blank t
    refine ⟨blank_formatted, ?_⟩
    rw [hslots]
    refine ⟨fun _ h => absurd rfl h, fun _ _ _ h => absurd rfl h, fun b hb => ?_,
      fun b hlo hhi => ?_, fun b hlo hhi _ => ?_⟩
    · rw [tiny_data] at hb
      rw [blank_busy (by omega)]
      exact decide_eq_true hb
    · rw [tiny_data] at hlo
      rw [blank_busy hhi, decide_eq_true_eq]
      refine iff_of_false (Nat.not_lt.mpr hlo) fun h => ?_
      obtain ⟨_, hk⟩ := h
      have hk : 0 = b := hk
      omega
    · rw [tiny_data] at hlo
      funext i
      simp only [blank]
      rw [if_neg (by omega), if_neg (by omega)]
  mapped n := by
    rw [blank_inode]
    exact .cleared .none blank
  free n _ := by
    rw [blank_inode]
    rfl
  tail n pos _ := by
    rw [blank_inode]
    exact Inode.byte_cleared .none blank pos

/-- A file is made, and read. -/
theorem blank_run : ∃ s, (system tiny blank).Run ([(.ialloc 2, some (.inum 1)),
    (.ilock 1, some .unit)] ++ [(.readi 1 0 5, some (.bytes (some [])))]) s ∧ s.fault = none := by
  have h : (system tiny blank).Run [] ⟨blank, fun _ => none, none⟩ := .init rfl
  have h := h.step (.done (c := .ialloc 2) (r := .inum 1) rfl rfl rfl)
  have h := h.step (.done (c := .ilock 1) (r := .unit) rfl rfl rfl)
  have h := h.step (.done (c := .readi 1 0 5) (r := .bytes (some [])) rfl rfl rfl)
  exact ⟨_, h, rfl⟩

theorem read_answers : Answers 8 (filesAfter (blank.file tiny) [(.ialloc 2, some (.inum 1)),
    (.ilock 1, some .unit)]) (.readi 1 0 5) (.bytes (some [])) := by
  obtain ⟨s, h, -⟩ := blank_run
  exact call_answers blank_sound h

end PerrOS.Fs
