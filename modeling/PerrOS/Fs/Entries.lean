import PerrOS.Fs.Directories

/-!
# The entries of a directory

What the routines on entries answer and what they leave, in terms of the table of
names that the bytes of a directory are.
-/

namespace PerrOS.Fs

open Lib
open Function (update)

/-- The entries of a directory by their names. -/
def File.names (f : File) : Table (List Byte) (BitVec 16) where
  length := f.data.length / DIRENT
  slot i := (Dirent.ofBytes ((f.data.drop (DIRENT * i)).take DIRENT)).slot

/-- The offset of the entry with a name, and its inode number. -/
def File.lookup (f : File) (name : List Byte) : Option (Nat × BitVec 16) :=
  (f.names.find (cstring DIRSIZ name)).bind fun i =>
    (f.names.slot i).map fun e => (DIRENT * i, e.2)

/-- The directory with one more entry. -/
def File.link (f : File) (name : List Byte) (inum : Nat) : File :=
  let de : Dirent := ⟨.ofNat 16 inum, strncpy DIRSIZ name⟩
  { f with data := overwrite f.data (DIRENT * f.names.vacant) de.bytes }

/-- The directory without the entry of a name. -/
def File.unlink (f : File) (name : List Byte) : File :=
  match f.lookup name with
  | some (off, _) => { f with data := overwrite f.data off (List.replicate DIRENT 0) }
  | none => f

/-- There are no entries but the first two. -/
def File.dirempty (f : File) : Bool :=
  (List.range f.names.length).all fun i => decide (i < 2) || (f.names.slot i).isNone

variable {sb : Superblock} {d d' : Disk} {n i b : Nat} {ip : Inode} {name : List Byte}

theorem Dirent.slot_eq_none {de : Dirent} : de.slot = none ↔ de.inum = 0 := by
  unfold slot
  split
  · rename_i h
    exact iff_of_true rfl h
  · rename_i h
    exact iff_of_false (by simp) h

theorem Dirent.slot_eq_some {de : Dirent} {x : BitVec 16} :
    de.slot = some (cstring DIRSIZ name, x) ↔
      (de.inum ≠ 0 ∧ namecmp name de.name = 0) ∧ de.inum = x := by
  unfold slot namecmp
  rw [strncmp_eq_zero]
  split
  · rename_i h
    simp [h]
  · rename_i h
    rw [Option.some_inj, Prod.mk.injEq]
    exact ⟨fun ⟨he, hx⟩ => ⟨⟨h, he.symm⟩, hx⟩, fun ⟨⟨_, he⟩, hx⟩ => ⟨he.symm, hx⟩⟩

/-- The entry in slot `i`. -/
def Inode.dirent (ip : Inode) (d : Disk) (i : Nat) : Dirent :=
  .ofBytes (ip.bytes d (DIRENT * i) DIRENT)

theorem File.length_names (f : File) : f.names.length = f.data.length / DIRENT := rfl

theorem names_length (ip : Inode) (d : Disk) :
    (ip.file d).names.length = ip.size.toNat / DIRENT := by
  rw [File.length_names, length_file]

theorem bytes_dirent (h : i < (ip.file d).names.length) :
    ((ip.file d).data.drop (DIRENT * i)).take DIRENT = ip.bytes d (DIRENT * i) DIRENT := by
  rw [names_length] at h
  unfold Inode.file Inode.bytes
  rw [map_range_read _ (by unfold DIRENT at *; omega)]
  simp only [Nat.zero_add]

theorem names_slot (h : i < (ip.file d).names.length) :
    (ip.file d).names.slot i = (ip.dirent d i).slot := by
  rw [Inode.dirent, ← bytes_dirent h]
  rfl

/-- Behind the last entry. -/
theorem Sound.dirent_tail (h : Sound sb d) (hi : ((d.inode sb n).file d).names.length ≤ i)
    (hdvd : DIRENT ∣ (d.inode sb n).size.toNat) : ((d.inode sb n).dirent d i).slot = none := by
  rw [names_length] at hi
  obtain ⟨m, hm⟩ := hdvd
  have hzero (j : Nat) : (d.inode sb n).byte d (DIRENT * i + j) = 0 := by
    refine h.tail n _ ?_
    rw [hm, Nat.mul_div_cancel_left m (by decide)] at hi
    rw [hm]
    exact Nat.le_add_right_of_le (Nat.mul_le_mul_left _ hi)
  rw [Dirent.slot_eq_none]
  simp only [Inode.dirent, Inode.bytes, hzero]
  decide

-- ---------------------------------------------------------------------------
-- dirlookup
-- ---------------------------------------------------------------------------

/-- An entry of a block of the file. -/
theorem dirent_block (ha : ip.addr d b ≠ 0) (hi : i < BSIZE / DIRENT) :
    Dirent.ofBytes ((d.block (ip.addr d b).toNat).slice (DIRENT * i) DIRENT) =
      ip.dirent d (BSIZE / DIRENT * b + i) := by
  have hdiv : (DIRENT * (BSIZE / DIRENT * b + i)) / BSIZE = b := by
    unfold DIRENT BSIZE at *
    omega
  have hmod : (DIRENT * (BSIZE / DIRENT * b + i)) % BSIZE = DIRENT * i := by
    unfold DIRENT BSIZE at *
    omega
  have hslice := Inode.slice_eq (m := DIRENT) (hdiv.symm ▸ ha)
    (by rw [hmod]; unfold DIRENT BSIZE at *; omega)
  rw [hdiv, hmod] at hslice
  rw [hslice, Inode.dirent]

theorem lookup_of_find {f : File} (hfind : f.names.find (cstring DIRSIZ name) = some i)
    (hslot : f.names.slot i = some (k, x)) : f.lookup name = some (DIRENT * i, x) := by
  rw [File.lookup, hfind, Option.bind_some, hslot, Option.map_some]

/-- No entry of the first blocks has the name, and there are no others. -/
theorem lookup_eq_none (hle : ip.size.toNat ≤ BSIZE * b) (hno : ∀ j < BSIZE / DIRENT * b, ∀ x,
    (ip.dirent d j).slot ≠ some (cstring DIRSIZ name, x)) : (ip.file d).lookup name = none := by
  have hfind : (ip.file d).names.find (cstring DIRSIZ name) = none := by
    refine Table.find_eq_none.mpr fun j hj x => ?_
    rw [names_slot hj]
    rw [names_length] at hj
    exact hno j (by unfold DIRENT BSIZE at *; omega) x
  rw [File.lookup, hfind, Option.bind_none]

theorem dirlookupFrom_outcome {Q : Option (Nat × BitVec 16) × Inode → Disk → Prop}
    {E : Fault → Disk → Prop} (h : Sound sb d) (hdvd : DIRENT ∣ (d.inode sb n).size.toNat)
    (hk : (d.inode sb n).size.toNat ≤ BSIZE * (b + k))
    (hno : ∀ j < BSIZE / DIRENT * b, ∀ x,
      ((d.inode sb n).dirent d j).slot ≠ some (cstring DIRSIZ name, x)) :
    Outcome (dirlookupFrom name k (d.inode sb n) (BSIZE * b)) Q E d ↔
      Q (((d.inode sb n).file d).lookup name, d.inode sb n) d := by
  induction k generalizing b with
  | zero => rw [lookup_eq_none hk hno, dirlookupFrom, Outcome.pure]
  | succ k ih =>
    unfold dirlookupFrom
    split
    · rename_i hlt
      have hb : b < blocks (d.inode sb n).size.toNat := by
        have := lt_blocks _ _ hlt
        rwa [Nat.mul_div_cancel_left b (by decide)] at this
      have ha := ((h.mapped n).addr b).mpr hb
      have hblock (j : Nat) (hj : j < BSIZE / DIRENT) := dirent_block ha hj
      rw [Outcome.bind, Nat.mul_div_cancel_left b (by decide),
        bmap_found h.consistent (h.mapped n) hb]
      dsimp only
      rw [Outcome.bind, bread_ok (by
        rw [h.consistent.formatted.size]
        exact (h.consistent.addr_range ha).2)]
      split
      · rename_i j hj
        obtain ⟨hhit, hmem, hfirst⟩ := List.find?_range_eq_some.mp hj
        have hj := List.mem_range.mp hmem
        have hentry := hblock j hj
        rw [decide_eq_true_eq, hentry] at hhit
        have hslot := Dirent.slot_eq_some.mpr ⟨hhit, rfl⟩
        have hlen : BSIZE / DIRENT * b + j < ((d.inode sb n).file d).names.length := by
          refine Nat.lt_of_not_le fun hle => ?_
          rw [h.dirent_tail hle hdvd] at hslot
          cases hslot
        have hfind : ((d.inode sb n).file d).names.find (cstring DIRSIZ name) =
            some (BSIZE / DIRENT * b + j) := by
          refine Table.find_eq_some.mpr ⟨hlen, ⟨_, (names_slot hlen).trans hslot⟩, fun m hm x => ?_⟩
          rw [names_slot (by omega)]
          by_cases hlow : m < BSIZE / DIRENT * b
          · exact hno m hlow x
          · obtain ⟨m', rfl⟩ := Nat.exists_eq_add_of_le (Nat.le_of_not_lt hlow)
            have hm' : m' < j := by omega
            have hmiss := hfirst m' hm'
            rw [hblock m' (by omega), Bool.not_eq_true', decide_eq_false_iff_not] at hmiss
            exact fun hs => hmiss (Dirent.slot_eq_some.mp hs).1
        rw [Outcome.pure, lookup_of_find hfind ((names_slot hlen).trans hslot), hentry]
        have hoff : BSIZE * b + DIRENT * j = DIRENT * (BSIZE / DIRENT * b + j) := by
          unfold DIRENT BSIZE
          omega
        rw [hoff]
      · rename_i hmiss
        have hall := List.find?_eq_none.mp hmiss
        rw [← Nat.mul_succ]
        refine ih (by rwa [Nat.succ_add_eq_add_succ]) fun j hj x => ?_
        by_cases hlow : j < BSIZE / DIRENT * b
        · exact hno j hlow x
        · obtain ⟨j', rfl⟩ := Nat.exists_eq_add_of_le (Nat.le_of_not_lt hlow)
          have hj' : j' < BSIZE / DIRENT := by
            rw [Nat.mul_succ] at hj
            omega
          have := hall j' (List.mem_range.mpr hj')
          rw [hblock j' hj', decide_eq_true_eq] at this
          exact fun hs => this (Dirent.slot_eq_some.mp hs).1
    · rename_i hge
      rw [lookup_eq_none (Nat.le_of_not_lt hge) hno, Outcome.pure]

theorem dirlookup_outcome {Q : Option (Nat × BitVec 16) × Inode → Disk → Prop}
    {E : Fault → Disk → Prop} (h : Sound sb d) (ht : (d.inode sb n).type = T_DIR)
    (hdvd : DIRENT ∣ (d.inode sb n).size.toNat) : Outcome (dirlookup (d.inode sb n) name) Q E d ↔
      Q (((d.inode sb n).file d).lookup name, d.inode sb n) d := by
  rw [dirlookup, if_neg (not_not.mpr ht)]
  refine dirlookupFrom_outcome (b := 0) h hdvd ?_ fun j hj => absurd hj (Nat.not_lt_zero j)
  unfold BSIZE
  omega

-- ---------------------------------------------------------------------------
-- The loops over the entries
-- ---------------------------------------------------------------------------

theorem toNat_off (hi : i ≤ MAXFILE * BSIZE / DIRENT) :
    (BitVec.ofNat 32 (DIRENT * i)).toNat = DIRENT * i := by
  rw [BitVec.toNat_ofNat, Nat.mod_eq_of_lt]
  unfold DIRENT MAXFILE NDIRECT NINDIRECT BSIZE at *
  omega

theorem Sound.names_le (h : Sound sb d) (n : Nat) :
    ((d.inode sb n).file d).names.length ≤ MAXFILE * BSIZE / DIRENT := by
  rw [names_length]
  exact Nat.div_le_div_right (h.size_le n)

theorem read_dirent (hi : i < (ip.file d).names.length) (hle : i ≤ MAXFILE * BSIZE / DIRENT) :
    (ip.file d).read (.ofNat 32 (DIRENT * i)) (.ofNat 32 DIRENT) =
      some (ip.bytes d (DIRENT * i) DIRENT) := by
  have hdata := bytes_dirent hi
  rw [names_length] at hi
  have hcnt : (BitVec.ofNat 32 DIRENT).toNat = DIRENT := by decide
  rw [File.read, toNat_off hle, hcnt, length_file, hdata, if_neg]
  unfold DIRENT MAXFILE NDIRECT NINDIRECT BSIZE at *
  omega

/-- The loop ends at the first entry where it is to stop, or behind the last. -/
theorem scanFrom_outcome (h : Sound sb d) (hdvd : DIRENT ∣ (d.inode sb n).size.toNat)
    (stop : BitVec 16 → Bool) (msg : String) (hi : i ≤ MAXFILE * BSIZE / DIRENT)
    (hk : ((d.inode sb n).file d).names.length ≤ i + k) : ∃ j, i ≤ j ∧
      j ≤ max i ((d.inode sb n).file d).names.length ∧
      (j < ((d.inode sb n).file d).names.length →
        stop ((d.inode sb n).dirent d j).inum = true) ∧
      (∀ m, i ≤ m → m < j → stop ((d.inode sb n).dirent d m).inum = false) ∧
      ∀ (Q : Word × Inode → Disk → Prop) (E : Fault → Disk → Prop),
        Outcome (scanFrom stop msg k (d.inode sb n) (.ofNat 32 (DIRENT * i))) Q E d ↔
          Q (.ofNat 32 (DIRENT * j), d.inode sb n) d := by
  have hlen := names_length (d.inode sb n) d
  induction k generalizing i with
  | zero =>
    exact ⟨i, Nat.le_refl i, Nat.le_max_left .., fun hlt => absurd hlt (by omega),
      fun m hm hlt => absurd hlt (by omega), fun Q E => Iff.rfl⟩
  | succ k ih =>
    by_cases hlt : i < ((d.inode sb n).file d).names.length
    · have hoff : BitVec.ofNat 32 (DIRENT * i) < (d.inode sb n).size := by
        rw [BitVec.lt_def, toNat_off hi]
        unfold DIRENT at *
        omega
      have hread := read_dirent hlt hi
      have hstep (Q : Word × Inode → Disk → Prop) (E : Fault → Disk → Prop) :
          Outcome (scanFrom stop msg (k + 1) (d.inode sb n) (.ofNat 32 (DIRENT * i))) Q E d ↔
            Outcome (if stop ((d.inode sb n).dirent d i).inum then
                return (.ofNat 32 (DIRENT * i), d.inode sb n)
              else scanFrom stop msg k (d.inode sb n)
                (.ofNat 32 (DIRENT * i) + .ofNat 32 DIRENT)) Q E d := by
        rw [scanFrom, if_pos hoff, Outcome.bind, readi_outcome h, hread]
        dsimp only
        rw [if_neg (by simp [Inode.bytes])]
        rfl
      cases hs : stop ((d.inode sb n).dirent d i).inum with
      | true =>
        refine ⟨i, Nat.le_refl i, Nat.le_max_left .., fun _ => hs,
          fun m hm hlt => absurd hlt (by omega), fun Q E => ?_⟩
        rw [hstep, if_pos hs, Outcome.pure]
      | false =>
        have hadd : BitVec.ofNat 32 (DIRENT * i) + BitVec.ofNat 32 DIRENT =
            .ofNat 32 (DIRENT * (i + 1)) := by
          rw [Nat.mul_succ, BitVec.ofNat_add]
        obtain ⟨j, hij, hj, hend, hbefore, houtcome⟩ := ih (i := i + 1)
          (Nat.le_trans hlt (h.names_le n)) (by omega)
        refine ⟨j, by omega, by omega, hend, fun m hm hmj => ?_, fun Q E => ?_⟩
        · rcases Nat.eq_or_lt_of_le hm with rfl | hm
          · exact hs
          · exact hbefore m hm hmj
        · rw [hstep, if_neg (by rw [hs]; simp), hadd, houtcome]
    · have hoff : ¬ BitVec.ofNat 32 (DIRENT * i) < (d.inode sb n).size := by
        obtain ⟨m, hm⟩ := hdvd
        rw [BitVec.lt_def, toNat_off hi]
        unfold DIRENT at *
        omega
      refine ⟨i, Nat.le_refl i, Nat.le_max_left .., fun hlt' => absurd hlt' hlt,
        fun m hm hlt => absurd hlt (by omega), fun Q E => ?_⟩
      rw [scanFrom, if_neg hoff, Outcome.pure]

-- ---------------------------------------------------------------------------
-- dirlink
-- ---------------------------------------------------------------------------

theorem File.write_whole {f : File} {off : Word} {src : List Byte}
    (hle : off.toNat ≤ f.data.length) (hmax : off.toNat + src.length ≤ MAXFILE * BSIZE) :
    f.write off src = (some src.length, { f with data := overwrite f.data off.toNat src }) := by
  have htake : src.take (MAXFILE * BSIZE - off.toNat) = src := List.take_of_length_le (by omega)
  rw [File.write, if_neg, htake]
  unfold MAXFILE NDIRECT NINDIRECT BSIZE at hmax
  omega

/-- A file that has its largest size. -/
theorem File.write_full {f : File} {off : Word} {src : List Byte}
    (hle : off.toNat ≤ f.data.length) (hmax : off.toNat = MAXFILE * BSIZE)
    (hsrc : src.length ≤ DIRENT) : (f.write off src).1 = some 0 := by
  rw [File.write, if_neg, hmax, Nat.sub_self, List.take_zero]
  · rfl
  · unfold MAXFILE NDIRECT NINDIRECT BSIZE at hmax
    unfold DIRENT at hsrc
    omega

/-- What `dirlink` answers and leaves. -/
def Linked (sb : Superblock) (d : Disk) (n : Nat) (name : List Byte) (inum : Nat)
    (r : Int × Inode) (d' : Disk) : Prop :=
  if ((d.inode sb n).file d).names.get (cstring DIRSIZ name) = none then
    r.1 = 0 ∧ Commit sb d n r.2 d' ∧ r.2.file d' = ((d.inode sb n).file d).link name inum
  else r = (-1, d.inode sb n) ∧ d' = d

/-- The name is new, and there is no room for it. -/
structure LinkFails (sb : Superblock) (f : File) (name : List Byte) (e : Fault) (d' : Disk) :
    Prop where
  new : f.names.get (cstring DIRSIZ name) = none
  full : ∀ i < f.names.length, f.names.slot i ≠ none
  room : NoRoom sb e d' ∨ e = .panic "dirlink" ∧ f.data.length = MAXFILE * BSIZE

theorem lookup_isSome (f : File) (name : List Byte) :
    (f.lookup name).isSome = (f.names.get (cstring DIRSIZ name)).isSome := by
  unfold File.lookup Table.get
  cases f.names.find (cstring DIRSIZ name) with
  | none => rfl
  | some i => simp

theorem lookup_inum (f : File) (name : List Byte) :
    (f.lookup name).map (·.2) = f.names.get (cstring DIRSIZ name) := by
  unfold File.lookup Table.get
  cases f.names.find (cstring DIRSIZ name) with
  | none => rfl
  | some i =>
    rw [Option.bind_some, Option.bind_some, Option.map_map]
    rfl

theorem length_dirent (inum : BitVec 16) (name : List Byte) :
    (Dirent.bytes ⟨inum, strncpy DIRSIZ name⟩).length = DIRENT := by
  simp only [Dirent.bytes, List.length_cons, length_strncpy]
  rfl

theorem map_toNat_eq {r : Option Word} {m : Nat} (hm : m < 2 ^ 32)
    (h : r.map BitVec.toNat = some m) : r = some (.ofNat 32 m) := by
  obtain ⟨w, rfl, rfl⟩ := Option.map_eq_some_iff.mp h
  rw [BitVec.ofNat_toNat, BitVec.setWidth_eq]

theorem dirlink_outcome (h : Sound sb d) (hn : n < sb.ninodes.toNat)
    (ht : (d.inode sb n).type = T_DIR) (hdvd : DIRENT ∣ (d.inode sb n).size.toNat) (inum : Nat) :
    Outcome (dirlink n (d.inode sb n) name inum) (Linked sb d n name inum)
      (LinkFails sb ((d.inode sb n).file d) name) d := by
  have hzero : (0 : Word) = .ofNat 32 (DIRENT * 0) := rfl
  have hlen := names_length (d.inode sb n) d
  have hmax := h.names_le n
  have hsome := lookup_isSome ((d.inode sb n).file d) name
  unfold dirlink
  rw [Outcome.bind, dirlookup_outcome h ht hdvd]
  dsimp only
  rw [hsome]
  cases hget : ((d.inode sb n).file d).names.get (cstring DIRSIZ name) with
  | some x =>
    rw [if_pos Option.isSome_some, Outcome.pure, Linked, if_neg (by rw [hget]; simp)]
    exact ⟨rfl, rfl⟩
  | none =>
    obtain ⟨j, -, hj, hempty, hfull, hscan⟩ := scanFrom_outcome (i := 0)
      (k := (d.inode sb n).size.toNat / DIRENT + 1) h hdvd (· = 0) "dirlink read" (Nat.zero_le _)
      (by omega)
    rw [Nat.zero_max] at hj
    have hused (m : Nat) (hm : m < j) : ((d.inode sb n).file d).names.slot m ≠ none := by
      rw [names_slot (Nat.lt_of_lt_of_le hm hj), Ne, Dirent.slot_eq_none]
      exact of_decide_eq_false (hfull m (Nat.zero_le m) hm)
    have hvacant : ((d.inode sb n).file d).names.vacant = j := by
      refine Table.vacant_eq hj (fun hlt => ?_) hused
      rw [names_slot hlt, Dirent.slot_eq_none]
      exact of_decide_eq_true (hempty hlt)
    have hoff := toNat_off (Nat.le_trans hj hmax)
    have hle : (BitVec.ofNat 32 (DIRENT * j)).toNat ≤ ((d.inode sb n).file d).data.length := by
      rw [hoff, length_file]
      unfold DIRENT at *
      omega
    have hsrc := length_dirent (.ofNat 16 inum) name
    have hwrite : Outcome (writei n (d.inode sb n) _ (.ofNat 32 (DIRENT * j)) _) _ _ d :=
      writei_outcome h hn (by rw [ht]; decide) (Nat.lt_of_le_of_lt (Nat.le_of_eq hsrc) (by decide))
    rw [hsrc, hoff] at hwrite
    rw [if_neg (by simp), Outcome.bind, hzero, hscan]
    dsimp only
    refine Outcome.seq (hwrite.mono (fun _ _ hw => hw) fun e d' he =>
      ⟨hget, fun i hi => ?_, .inl he.1⟩) fun r d' hw => ?_
    · obtain ⟨m, hm⟩ := hdvd
      have := he.2
      exact hused i (by unfold DIRENT at *; omega)
    · obtain ⟨hcommit, hcount, hfile⟩ := hw
      by_cases hroom : DIRENT * j + DIRENT ≤ MAXFILE * BSIZE
      · rw [File.write_whole hle (by rw [hoff, hsrc]; exact hroom), hsrc] at hcount
        rw [File.write_whole hle (by rw [hoff, hsrc]; exact hroom), hoff] at hfile
        have hr := map_toNat_eq (by decide) hcount
        rw [if_neg (by rw [hr]; simp), Outcome.pure, Linked, if_pos hget]
        refine ⟨rfl, hcommit, ?_⟩
        rw [hfile, File.link, hvacant]
      · have hj' : DIRENT * j = MAXFILE * BSIZE := by
          unfold DIRENT MAXFILE NDIRECT NINDIRECT BSIZE at *
          omega
        rw [File.write_full hle (by rw [hoff, hj']) (Nat.le_of_eq hsrc)] at hcount
        have hr := map_toNat_eq (by decide) hcount
        rw [if_pos (by rw [hr]; decide), Outcome.throw]
        refine ⟨hget, fun i hi => hused i ?_, .inr ⟨rfl, ?_⟩⟩
        · have := h.size_le n
          unfold DIRENT at *
          omega
        · rw [length_file]
          have := h.size_le n
          rw [hoff, length_file] at hle
          omega

-- ---------------------------------------------------------------------------
-- sys_unlink
-- ---------------------------------------------------------------------------

theorem isdirempty_outcome {Q : Bool × Inode → Disk → Prop} {E : Fault → Disk → Prop}
    (h : Sound sb d) (hdvd : DIRENT ∣ (d.inode sb n).size.toNat) :
    Outcome (isdirempty (d.inode sb n)) Q E d ↔
      Q (((d.inode sb n).file d).dirempty, d.inode sb n) d := by
  have hlen := names_length (d.inode sb n) d
  have hmax := h.names_le n
  obtain ⟨j, hlo, hj, hend, hbefore, hscan⟩ := scanFrom_outcome (i := 2)
    (k := (d.inode sb n).size.toNat / DIRENT + 1) h hdvd (· ≠ 0) "isdirempty: readi" (by decide)
    (by omega)
  have hoff := toNat_off (i := j) (Nat.le_trans hj (Nat.max_le.mpr ⟨by decide, hmax⟩))
  have hlt : BitVec.ofNat 32 (DIRENT * j) < (d.inode sb n).size ↔
      j < ((d.inode sb n).file d).names.length := by
    obtain ⟨m, hm⟩ := hdvd
    rw [BitVec.lt_def, hoff]
    unfold DIRENT at *
    omega
  have hresult : (!decide (BitVec.ofNat 32 (DIRENT * j) < (d.inode sb n).size)) =
      ((d.inode sb n).file d).dirempty := by
    rw [Bool.eq_iff_iff, Bool.not_eq_true', decide_eq_false_iff_not, hlt, File.dirempty,
      List.all_eq_true]
    constructor
    · intro hge i hi
      have hi := List.mem_range.mp hi
      rw [Bool.or_eq_true, decide_eq_true_eq, Option.isNone_iff_eq_none, names_slot hi,
        Dirent.slot_eq_none]
      refine (Nat.lt_or_ge i 2).imp_right fun h2 => ?_
      exact Classical.not_not.mp (of_decide_eq_false (hbefore i h2 (by omega)))
    · intro hall hlt
      have := hall j (List.mem_range.mpr hlt)
      rw [Bool.or_eq_true, decide_eq_true_eq, Option.isNone_iff_eq_none, names_slot hlt,
        Dirent.slot_eq_none] at this
      exact of_decide_eq_true (hend hlt) (this.resolve_left (Nat.not_lt.mpr hlo))
  unfold isdirempty
  rw [Nat.mul_comm 2 DIRENT, Outcome.bind, hscan, Outcome.pure, hresult]

/-- What is answered, and what is left of the directory. -/
structure Unlinked (sb : Superblock) (d : Disk) (n : Nat) (name : List Byte)
    (r : Option (BitVec 16) × Inode) (d' : Disk) : Prop where
  answer : r.1 = ((d.inode sb n).file d).names.get (cstring DIRSIZ name)
  commit : Commit sb d n r.2 d'
  file : r.2.file d' = ((d.inode sb n).file d).unlink name

theorem unlinkEntry_outcome {E : Fault → Disk → Prop} (h : Sound sb d) (hn : n < sb.ninodes.toNat)
    (ht : (d.inode sb n).type = T_DIR) (hdvd : DIRENT ∣ (d.inode sb n).size.toNat) :
    Outcome (unlinkEntry n (d.inode sb n) name) (Unlinked sb d n name) E d := by
  have hlen := names_length (d.inode sb n) d
  have hinum := lookup_inum ((d.inode sb n).file d) name
  unfold unlinkEntry
  rw [Outcome.bind, dirlookup_outcome h ht hdvd]
  dsimp only
  cases hl : ((d.inode sb n).file d).lookup name with
  | none =>
    rw [hl] at hinum
    exact Outcome.pure.mpr ⟨hinum, .refl h n, by rw [File.unlink, hl]⟩
  | some e =>
    obtain ⟨i, hi, he⟩ := Option.bind_eq_some_iff.mp hl
    obtain ⟨⟨key, x⟩, hslot, rfl⟩ := Option.map_eq_some_iff.mp he
    rw [hl, Option.map_some] at hinum
    have hlt := (Table.find_eq_some.mp hi).1
    have hoff := toNat_off (Nat.le_trans (Nat.le_of_lt hlt) (h.names_le n))
    have hsize := h.size_le n
    have hend : DIRENT * i + DIRENT ≤ (d.inode sb n).size.toNat := by
      unfold DIRENT at *
      omega
    have hsrc : (List.replicate DIRENT (0 : Byte)).length = DIRENT := List.length_replicate
    have hwrite : Outcome (writei n (d.inode sb n) _ (.ofNat 32 (DIRENT * i)) _) _ _ d :=
      writei_outcome h hn (by rw [ht]; decide) (Nat.lt_of_le_of_lt (Nat.le_of_eq hsrc) (by decide))
    rw [hsrc, hoff] at hwrite
    dsimp only
    refine Outcome.seq (hwrite.mono (fun _ _ hw => hw) fun e d' he =>
      absurd he.2 (Nat.not_lt.mpr hend)) fun r d' hw => ?_
    obtain ⟨hcommit, hcount, hfile⟩ := hw
    have hwhole : ((d.inode sb n).file d).write (.ofNat 32 (DIRENT * i))
        (List.replicate DIRENT 0) = _ :=
      File.write_whole (by rw [hoff, length_file]; omega) (by rw [hoff, hsrc]; omega)
    rw [hwhole, hsrc] at hcount
    rw [hwhole, hoff] at hfile
    have hr := map_toNat_eq (by decide) hcount
    rw [if_neg (by rw [hr]; simp), Outcome.pure]
    exact ⟨hinum, hcommit, by rw [hfile, File.unlink, hl]⟩

end PerrOS.Fs
