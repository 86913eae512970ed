import PerrOS.Fs.Entries
import PerrOS.Fs.Store

/-!
# Directories as maps of names

Any run of the operations on inodes and on the entries of directories. To its
callers a directory is a map from names to inode numbers, whatever the slots its
entries are in, and no other operation changes it.
-/

namespace PerrOS.Fs

open Lib
open Function (update)

/-- The names of a directory. -/
abbrev Dir := List Byte → Option (BitVec 16)

/-- The bytes are those of a directory. -/
structure Folder (f : File) (m : Dir) : Prop where
  whole : DIRENT ∣ f.data.length
  unique : f.names.Unique
  names : f.names.get = m

def Folders (fs : Files) (nm : Nat → Dir) : Prop :=
  ∀ n f, fs n = some f → f.type = T_DIR → Folder f (nm n)

namespace Folder

variable {f : File} {m : Dir} {name src : List Byte}

theorem put (h : Folder f m) (hj : j ≤ f.names.length) (hlen : src.length = DIRENT) :
    Table.Put f.names j (Dirent.ofBytes src).slot
      { f with data := overwrite f.data (DIRENT * j) src }.names := by
  obtain ⟨k, hk⟩ := h.whole
  have hle : DIRENT * j ≤ f.data.length := by
    rw [File.length_names] at hj
    unfold DIRENT at *
    omega
  have hlength : { f with data := overwrite f.data (DIRENT * j) src }.names.length =
      max f.names.length (j + 1) := by
    rw [File.length_names, File.length_names, length_overwrite hle, hlen]
    unfold DIRENT at *
    omega
  refine ⟨hj, hlength, fun i _ => ?_⟩
  unfold File.names
  dsimp only
  split
  · rename_i hij
    subst hij
    have hread : ((overwrite f.data (DIRENT * i) src).drop (DIRENT * i)).take src.length = src :=
      read_overwrite hle
    rw [hlen] at hread
    rw [hread]
  · rename_i hij
    rw [read_overwrite_other hle]
    unfold DIRENT at *
    omega

theorem whole_put (h : Folder f m) (hj : j ≤ f.names.length) (hlen : src.length = DIRENT) :
    DIRENT ∣ (overwrite f.data (DIRENT * j) src).length := by
  obtain ⟨k, hk⟩ := h.whole
  have hle : DIRENT * j ≤ f.data.length := by
    rw [File.length_names] at hj
    unfold DIRENT at *
    omega
  rw [length_overwrite hle, hlen, hk]
  exact ⟨max k (j + 1), by unfold DIRENT; omega⟩

theorem link (h : Folder f m) (hnew : m (cstring DIRSIZ name) = none)
    (hinum : BitVec.ofNat 16 inum ≠ 0) : Folder (f.link name inum)
      (update m (cstring DIRSIZ name) (some (.ofNat 16 inum))) := by
  obtain ⟨de, hde⟩ : ∃ de : Dirent, de = ⟨.ofNat 16 inum, strncpy DIRSIZ name⟩ := ⟨_, rfl⟩
  have hlen : de.bytes.length = DIRENT := by
    rw [hde]
    exact length_dirent ..
  have hslot : (Dirent.ofBytes de.bytes).slot = some (cstring DIRSIZ name, .ofNat 16 inum) := by
    rw [Dirent.ofBytes_bytes de (by rw [hde]; exact length_strncpy ..), Dirent.slot, hde,
      if_neg hinum, cstring_strncpy]
  have hput := h.put f.names.vacant_le hlen
  rw [hslot] at hput
  rw [← h.names] at hnew ⊢
  obtain ⟨hunique, hget⟩ := hput.add h.unique (Table.get_eq_none.mp hnew) Table.slot_vacant
  rw [File.link, ← hde]
  exact ⟨h.whole_put f.names.vacant_le hlen, hunique, hget⟩

theorem unlink (h : Folder f m) (name : List Byte) :
    Folder (f.unlink name) (update m (cstring DIRSIZ name) none) := by
  have hinum := lookup_inum f name
  rw [h.names] at hinum
  unfold File.unlink
  cases hl : f.lookup name with
  | none =>
    rw [hl] at hinum
    have hsame : update m (cstring DIRSIZ name) none = m := by
      rw [Option.map_none] at hinum
      rw [hinum, Function.update_eq_self]
    rw [hsame]
    exact h
  | some e =>
    obtain ⟨i, hi, he⟩ := Option.bind_eq_some_iff.mp hl
    obtain ⟨⟨key, x⟩, hslot, rfl⟩ := Option.map_eq_some_iff.mp he
    have hlt := (Table.find_eq_some.mp hi).1
    have hlen : (List.replicate DIRENT (0 : Byte)).length = DIRENT := List.length_replicate
    have hput := h.put (Nat.le_of_lt hlt) hlen
    have hempty : (Dirent.ofBytes (List.replicate DIRENT 0)).slot = none := by decide
    rw [hempty] at hput
    obtain ⟨hunique, hget⟩ := hput.erase h.unique hi
    rw [h.names] at hget
    exact ⟨h.whole_put (Nat.le_of_lt hlt) hlen, hunique, hget⟩

theorem empty (type major minor nlink : BitVec 16) :
    Folder ⟨type, major, minor, nlink, []⟩ fun _ => none where
  whole := Nat.dvd_zero _
  unique i _ _ _ _ hi := by
    rw [File.length_names, List.length_nil, Nat.zero_div] at hi
    exact absurd hi (Nat.not_lt_zero i)
  names := by
    funext k
    refine Table.get_eq_none.mpr (Table.find_eq_none.mpr fun i hi => ?_)
    rw [File.length_names, List.length_nil, Nat.zero_div] at hi
    exact absurd hi (Nat.not_lt_zero i)

end Folder

namespace Folders

variable {fs : Files} {nm : Nat → Dir} {n : Nat} {m : Dir} {fo : Option File}

theorem set (h : Folders fs nm) (hn : ∀ f, fo = some f → f.type = T_DIR → Folder f m) :
    Folders (update fs n fo) (update nm n m) := by
  intro k f hf ht
  by_cases hk : k = n
  · subst hk
    rw [Function.update_self] at hf ⊢
    exact hn f hf ht
  · rw [Function.update_of_ne hk] at hf ⊢
    exact h k f hf ht

/-- A file changes, and not the names in it. -/
theorem keep (h : Folders fs nm) (hn : ∀ f, fo = some f → f.type = T_DIR → Folder f (nm n)) :
    Folders (update fs n fo) nm := by
  have := h.set (n := n) hn
  rwa [Function.update_eq_self] at this

end Folders

-- ---------------------------------------------------------------------------
-- Runs
-- ---------------------------------------------------------------------------

namespace Names

inductive Op
  | inode (c : Call)
  | dirlookup (n : Nat) (name : List Byte)
  | dirlink (n : Nat) (name : List Byte) (inum : Nat)
  | unlink (n : Nat) (name : List Byte)
  | isdirempty (n : Nat)

inductive Reply
  | result (r : Result)
  | entry (r : Option (BitVec 16))
  | status (r : Int)
  | flag (r : Bool)

/-- A directory is not written as a file is. -/
def mayCall (icache : Nat → Option Inode) : Call → Bool
  | .writei n _ _ => (icache n).all fun ip => ip.type ≠ T_DIR
  | _ => true

/-- The program of an operation that can be called, and the cache it leaves. -/
def program (sb : Superblock) (icache : Nat → Option Inode) :
    Op → Option (FsM (Reply × (Nat → Option Inode)))
  | .inode c =>
    if mayCall icache c then (Fs.program sb icache c).map fun m => do
      let (r, icache) ← m
      return (.result r, icache)
    else none
  | .dirlookup n name => (icache n).map fun dp => do
    let (r, dp) ← dirlookup dp name
    return (.entry (r.map (·.2)), update icache n (some dp))
  | .dirlink n name inum =>
    if 0 < inum ∧ inum < sb.ninodes.toNat ∧ inum < 2 ^ 16 then (icache n).map fun dp => do
      let (r, dp) ← dirlink n dp name inum
      return (.status r, update icache n (some dp))
    else none
  | .unlink n name => (icache n).map fun dp => do
    let (r, dp) ← unlinkEntry n dp name
    return (.entry r, update icache n (some dp))
  | .isdirempty n =>
    match icache n with
    | some dp =>
      if dp.type = T_DIR then some do
        let (r, dp) ← isdirempty dp
        return (.flag r, update icache n (some dp))
      else none
    | none => none

abbrev Label := Op × Option Reply

inductive Step (sb : Superblock) (s : State) : Label → State → Prop
  | done (hok : s.fault = none) (hp : program sb s.icache o = some m)
    (hrun : m.run.run s.disk = (.ok (r, icache), d)) : Step sb s (o, some r) ⟨d, icache, none⟩
  | fail (hok : s.fault = none) (hp : program sb s.icache o = some m)
    (hrun : m.run.run s.disk = (.error e, d)) :
    Step sb s (o, none) { s with disk := d, fault := some e }

def system (sb : Superblock) (d : Disk) : System State Label where
  init s := s = ⟨d, fun _ => none, none⟩
  step := Step sb

/-- The files and the names after an operation. -/
def effect (op : Op) (r : Reply) (x : Files × (Nat → Dir)) : Files × (Nat → Dir) :=
  match op, r with
  | .inode (.ialloc type), .result (.inum n) =>
    (Fs.effect (.ialloc type, .inum n) x.1, update x.2 n fun _ => none)
  | .inode c, .result r => (Fs.effect (c, r) x.1, x.2)
  | .dirlink n name inum, .status r =>
    if r = 0 then (update x.1 n ((x.1 n).map fun f => f.link name inum),
      update x.2 n (update (x.2 n) (cstring DIRSIZ name) (some (.ofNat 16 inum))))
    else x
  | .unlink n name, .entry _ => (update x.1 n ((x.1 n).map fun f => f.unlink name),
      update x.2 n (update (x.2 n) (cstring DIRSIZ name) none))
  | _, _ => x

/-- What an operation answers. -/
def Says (ninodes : Nat) (x : Files × (Nat → Dir)) : Op → Reply → Prop
  | .inode c, r => ∃ a, r = .result a ∧ Answers ninodes x.1 c a
  | .dirlookup n name, r => r = .entry (x.2 n (cstring DIRSIZ name))
  | .dirlink n name _, r => r = .status (if x.2 n (cstring DIRSIZ name) = none then 0 else -1)
  | .unlink n name, r => r = .entry (x.2 n (cstring DIRSIZ name))
  | .isdirempty n, r => ∃ f, x.1 n = some f ∧ r = .flag f.dirempty

/-- How an operation fails: a file is taken for a directory, or there is no room for a name. -/
def Halts (sb : Superblock) (fs : Files) (op : Op) (e : Fault) (d' : Disk) : Prop :=
  match op with
  | .inode c => Stops sb fs c e d'
  | .dirlookup n _ | .unlink n _ =>
    e = .panic "dirlookup not DIR" ∧ ∃ f, fs n = some f ∧ f.type ≠ T_DIR
  | .dirlink n name _ => ∃ f, fs n = some f ∧
    if f.type = T_DIR then LinkFails sb f name e d' else e = .panic "dirlookup not DIR"
  | .isdirempty _ => False

def answered (l : Label) : Option (Op × Reply) := l.2.map fun r => (l.1, r)

/-- The files and the names after some operations. -/
def after (x : Files × (Nat → Dir)) (ls : List Label) : Files × (Nat → Dir) :=
  (ls.filterMap answered).foldl (fun x l => effect l.1 l.2 x) x

variable {sb : Superblock} {d d' : Disk} {icache : Nat → Option Inode} {fs : Files}
  {nm : Nat → Dir} {n : Nat} {ip : Inode} {name : List Byte} {s : State} {ls : List Label}

/-- The operations on inodes leave the names as they are. -/
theorem folders_inode (h : Folders fs nm) (c : Call) (r : Result)
    (hw : ∀ n off src, c = .writei n off src → ∀ f, fs n = some f → f.type ≠ T_DIR) :
    Folders (effect (.inode c) (.result r) (fs, nm)).1
      (effect (.inode c) (.result r) (fs, nm)).2 := by
  cases c with
  | ilock n => exact h
  | recycle n => exact h
  | readi n off cnt => exact h
  | ialloc type =>
    cases r with
    | inum n =>
      refine h.set fun f hf _ => ?_
      cases hf
      exact .empty ..
    | unit => exact h
    | bytes r => exact h
    | count r => exact h
  | writei n off src =>
    refine h.keep fun f hf ht => ?_
    obtain ⟨f', hf', rfl⟩ := Option.map_eq_some_iff.mp hf
    have htype : (f'.write off src).2.type = f'.type := by
      unfold File.write
      split <;> rfl
    exact absurd (htype.symm.trans ht) (hw n off src rfl f' hf')
  | iupdate n major minor nlink =>
    refine h.keep fun f hf ht => ?_
    obtain ⟨f', hf', rfl⟩ := Option.map_eq_some_iff.mp hf
    obtain ⟨hwhole, hunique, hnames⟩ := h n f' hf' ht
    exact ⟨hwhole, hunique, hnames⟩
  | iput n =>
    refine h.keep fun f hf _ => ?_
    cases hf

/-- The directory of an inode in memory. -/
theorem good_folder (h : Good sb fs d icache) (hf : Folders fs nm) (hc : icache n = some ip)
    (ht : ip.type = T_DIR) : ip = d.inode sb n ∧ fs n = some ((d.inode sb n).file d) ∧
      Folder ((d.inode sb n).file d) (nm n) ∧ DIRENT ∣ (d.inode sb n).size.toNat := by
  obtain ⟨-, hcached, rfl⟩ := h
  obtain ⟨rfl, h0⟩ := hcached.inode n ip hc
  have hfile := file_of_type h0
  have hfolder := hf n _ hfile ht
  have hwhole := hfolder.whole
  rw [length_file] at hwhole
  exact ⟨rfl, hfile, hfolder, hwhole⟩

theorem good_set (h : Good sb fs d icache) (hc : icache n = some ip)
    (hcommit : Commit sb d n ip' d') (hf : ip'.file d' = f) (ht : f.type ≠ 0) :
    Good sb (update fs n (some f)) d' (update icache n (some ip')) := by
  obtain ⟨-, hcached, rfl⟩ := h
  subst hf
  exact ⟨hcommit.sound, hcached.set hcommit ht (hcached.lt n _ hc),
    hcommit.files rfl (hcommit.file_self ht)⟩

theorem effect_inode (c : Call) (r : Result) (x : Files × (Nat → Dir)) :
    (effect (.inode c) (.result r) x).1 = Fs.effect (c, r) x.1 := by
  cases c with
  | ialloc type => cases r <;> rfl
  | _ => rfl

/-- The inode in memory is that of a file. -/
theorem good_file (h : Good sb fs d icache) (hc : icache n = some ip) :
    ip = d.inode sb n ∧ fs n = some (ip.file d) ∧ ip.type ≠ 0 := by
  obtain ⟨-, hcached, rfl⟩ := h
  obtain ⟨rfl, h0⟩ := hcached.inode n ip hc
  exact ⟨rfl, file_of_type h0, h0⟩

theorem good_same (h : Good sb fs d icache) (hc : icache n = some ip) :
    Good sb fs d (update icache n (some ip)) := by
  rwa [← hc, Function.update_eq_self]

theorem dirlookup_throws {Q : Option (Nat × BitVec 16) × Inode → Disk → Prop}
    {E : Fault → Disk → Prop} (ht : ip.type ≠ T_DIR) :
    Outcome (dirlookup ip name) Q E d ↔ E (.panic "dirlookup not DIR") d := by
  rw [dirlookup, if_pos ht, Outcome.throw]

/-- Each operation answers as the files and the names say, or fails. -/
theorem op_outcome (h : Good sb fs d icache) (hf : Folders fs nm)
    (hp : program sb icache op = some m) : Outcome m (fun r d' =>
      Says sb.ninodes.toNat (fs, nm) op r.1 ∧ Good sb (effect op r.1 (fs, nm)).1 d' r.2 ∧
        Folders (effect op r.1 (fs, nm)).1 (effect op r.1 (fs, nm)).2) (Halts sb fs op) d := by
  cases op with
  | inode c =>
    obtain ⟨hmay, hp⟩ := Option.ite_none_right_eq_some.mp hp
    obtain ⟨m', hm', rfl⟩ := Option.map_eq_some_iff.mp hp
    refine Outcome.seq (program_outcome h hm') fun r d' hr => ?_
    obtain ⟨hans, hgood⟩ := hr
    refine Outcome.pure.mpr ⟨⟨_, rfl, hans⟩, ?_, folders_inode hf c r.1 ?_⟩
    · rw [effect_inode]
      exact hgood
    · rintro n off src rfl f hfn
      cases hc : icache n with
      | none => simp [Fs.program, hc] at hm'
      | some ip =>
        rw [mayCall, hc, Option.all_some, decide_eq_true_eq] at hmay
        obtain ⟨-, hfile, -⟩ := good_file h hc
        cases hfile.symm.trans hfn
        exact hmay
  | dirlookup n name =>
    obtain ⟨ip, hc, rfl⟩ := Option.map_eq_some_iff.mp hp
    by_cases ht : ip.type = T_DIR
    · obtain ⟨rfl, -, hfolder, hdvd⟩ := good_folder h hf hc ht
      rw [Outcome.bind, dirlookup_outcome h.sound ht hdvd, Outcome.pure]
      refine ⟨?_, good_same h hc, hf⟩
      rw [Says, lookup_inum, hfolder.names]
    · rw [Outcome.bind, dirlookup_throws ht]
      exact ⟨rfl, _, (good_file h hc).2.1, ht⟩
  | dirlink n name inum =>
    obtain ⟨⟨hpos, -, hlt⟩, hp⟩ := Option.ite_none_right_eq_some.mp hp
    obtain ⟨ip, hc, rfl⟩ := Option.map_eq_some_iff.mp hp
    by_cases ht : ip.type = T_DIR
    · obtain ⟨rfl, hfile, hfolder, hdvd⟩ := good_folder h hf hc ht
      refine Outcome.seq ((dirlink_outcome h.sound (h.cached.lt n _ hc) ht hdvd inum).mono
        (fun _ _ hr => hr) fun e d' he => ⟨_, hfile, ?_⟩) fun r d' hr => ?_
      · rw [if_pos (show ((d.inode sb n).file d).type = T_DIR from ht)]
        exact he
      · rw [Linked, hfolder.names] at hr
        rw [Outcome.pure, Says]
        by_cases hnew : nm n (cstring DIRSIZ name) = none
        · rw [if_pos hnew] at hr ⊢
          obtain ⟨hstatus, hcommit, hlink⟩ := hr
          have hinum : BitVec.ofNat 16 inum ≠ 0 := fun h0 => by
            have := congrArg BitVec.toNat h0
            rw [BitVec.toNat_ofNat, Nat.mod_eq_of_lt hlt] at this
            exact Nat.ne_of_gt hpos this
          have hdir : (((d.inode sb n).file d).link name inum).type ≠ 0 := by
            rw [show (((d.inode sb n).file d).link name inum).type = T_DIR from ht]
            decide
          rw [effect, hstatus, if_pos rfl]
          dsimp only
          rw [hfile, Option.map_some]
          refine ⟨rfl, good_set h hc hcommit hlink hdir, hf.set fun f hf' _ => ?_⟩
          cases hf'
          exact hfolder.link hnew hinum
        · rw [if_neg hnew] at hr ⊢
          obtain ⟨rfl, rfl⟩ := hr
          exact ⟨rfl, good_same h hc, hf⟩
    · unfold dirlink
      rw [Outcome.bind, Outcome.bind, dirlookup_throws ht]
      refine ⟨_, (good_file h hc).2.1, ?_⟩
      rw [if_neg (show (ip.file d).type ≠ T_DIR from ht)]
  | unlink n name =>
    obtain ⟨ip, hc, rfl⟩ := Option.map_eq_some_iff.mp hp
    by_cases ht : ip.type = T_DIR
    · obtain ⟨rfl, hfile, hfolder, hdvd⟩ := good_folder h hf hc ht
      refine Outcome.seq (unlinkEntry_outcome h.sound (h.cached.lt n _ hc) ht hdvd)
        fun r d' hr => ?_
      obtain ⟨hanswer, hcommit, hunlink⟩ := hr
      have htype : (((d.inode sb n).file d).unlink name).type = T_DIR := by
        unfold File.unlink
        split <;> exact ht
      rw [Outcome.pure, Says, hanswer, hfolder.names, effect]
      dsimp only
      rw [hfile, Option.map_some]
      refine ⟨rfl, good_set h hc hcommit hunlink (by rw [htype]; decide), hf.set fun f hf' _ => ?_⟩
      cases hf'
      exact hfolder.unlink name
    · unfold unlinkEntry
      rw [Outcome.bind, Outcome.bind, dirlookup_throws ht]
      exact ⟨rfl, _, (good_file h hc).2.1, ht⟩
  | isdirempty n =>
    cases hc : icache n with
    | none => simp [program, hc] at hp
    | some ip =>
      simp only [program, hc] at hp
      obtain ⟨ht, hp⟩ := Option.ite_none_right_eq_some.mp hp
      cases hp
      obtain ⟨rfl, hfile, -, hdvd⟩ := good_folder h hf hc ht
      refine Outcome.bind.mpr ((isdirempty_outcome h.sound hdvd).mpr (Outcome.pure.mpr ?_))
      exact ⟨⟨_, hfile, rfl⟩, good_same h hc, hf⟩

theorem after_done (x : Files × (Nat → Dir)) (ls : List Label) (op : Op) (r : Reply) :
    after x (ls ++ [(op, some r)]) = effect op r (after x ls) := by
  unfold after
  rw [List.filterMap_append, List.foldl_append]
  rfl

theorem run_folders (hd : Sound sb d) (hf : Folders (d.file sb) nm)
    (h : (system sb d).Run ls s) (hok : s.fault = none) :
    Good sb (after (d.file sb, nm) ls).1 s.disk s.icache ∧
      Folders (after (d.file sb, nm) ls).1 (after (d.file sb, nm) ls).2 := by
  revert hok
  refine h.invariant (P := fun ls s => s.fault = none →
    Good sb (after (d.file sb, nm) ls).1 s.disk s.icache ∧
      Folders (after (d.file sb, nm) ls).1 (after (d.file sb, nm) ls).2) ?_ ?_
  · rintro _ rfl _
    exact ⟨⟨hd, ⟨by simp, by simp⟩, rfl⟩, hf⟩
  · intro ls s l t hgood hs hok
    cases hs with
    | done hok' hp hrun =>
      obtain ⟨hg, hn⟩ := hgood hok'
      rw [after_done]
      exact ((Outcome.run hrun).mp (op_outcome hg hn hp)).2
    | fail => cases hok

/-- A name that is looked up in a directory is found, and a name is added or taken out but for want
of room. -/
theorem op_halts (hd : Sound sb d) (hf : Folders (d.file sb) nm)
    (h : (system sb d).Run (ls ++ [(op, none)]) s) :
    ∃ e, s.fault = some e ∧ Halts sb (after (d.file sb, nm) ls).1 op e s.disk := by
  obtain ⟨t, hrun, hs⟩ := h.of_concat
  cases hs with
  | fail hok hp hr =>
    obtain ⟨hg, hn⟩ := run_folders hd hf hrun hok
    exact ⟨_, rfl, (Outcome.run_error hr).mp (op_outcome hg hn hp)⟩

theorem blank_folders : Folders (blank.file tiny) fun _ _ => none := by
  intro n f hf _
  have hnone : blank.file tiny n = none := file_eq_none.mpr (by rw [blank_inode]; rfl)
  cases hnone.symm.trans hf

/-- A file is taken for a directory. -/
theorem file_halts : ∃ s e, (system tiny blank).Run ([(.inode (.ialloc 2),
    some (.result (.inum 1))), (.inode (.ilock 1), some (.result .unit))] ++
    [(.dirlookup 1 [97], none)]) s ∧ s.fault = some e ∧
    Halts tiny (after (blank.file tiny, fun _ _ => none) [(.inode (.ialloc 2),
      some (.result (.inum 1))), (.inode (.ilock 1), some (.result .unit))]).1
      (.dirlookup 1 [97]) e s.disk := by
  have h : (system tiny blank).Run [] ⟨blank, fun _ => none, none⟩ := .init rfl
  have h := h.step (.done (o := .inode (.ialloc 2)) (r := .result (.inum 1)) rfl rfl rfl)
  have h := h.step (.done (o := .inode (.ilock 1)) (r := .result .unit) rfl rfl rfl)
  have h := h.step (.fail (o := .dirlookup 1 [97]) (e := .panic "dirlookup not DIR") rfl rfl rfl)
  obtain ⟨e, he, hhalts⟩ := op_halts blank_sound blank_folders h
  exact ⟨_, e, h, he, hhalts⟩

end Names

end PerrOS.Fs
